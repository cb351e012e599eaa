import GossipRing.Proofs.ArenaCells

/-!
# Mending a tree in an arena

Toward: the two loops that climb from a defect end, and leave a tree without one. Going up, only the
subtree at the defect matters and what its context has room for.

* **`Room`** — the context keeps the rules of a red-black tree if a subtree with so many black nodes
  on every path comes into the open place (`Room.sound`).
* **`repeatWhile_spec`** — a loop whose every turn brings a weight down.
* **`Shows.mendRed`** — from a red node that may be below a red one. **`Shows.mendShort`** — from a
  subtree that `Lacks` a black node. Both keep the entries.
-/

namespace GossipRing.RedBlack

variable {α : Type}

open RedBlack.Tree

/-! ## Loops -/

/-- **A loop ends** if as long as it is to go on every turn has a result, and what the loop is at gets
    less. `At` tells what that is, and there are more turns than its weight. -/
theorem repeatWhile_spec {σ ι : Type} {test : σ → Option Bool} {body : σ → Option σ}
    (At : σ → ι → Prop) (weight : ι → ℕ) (Done : ι → Prop)
    (hturn : ∀ s i, At s i → (test s = some false ∧ Done i) ∨
      (test s = some true ∧ ∃ s' i', body s = some s' ∧ weight i' < weight i ∧ At s' i'))
    {s : σ} (i : ι) {turns : ℕ} (h : At s i) (hturns : weight i < turns) :
    ∃ s' i', repeatWhile test body turns s = some s' ∧ At s' i' ∧ Done i' := by
  induction turns generalizing s i with
  | zero => exact absurd hturns (Nat.not_lt_zero _)
  | succ turns ih =>
      rcases hturn s i h with ⟨htest, hdone⟩ | ⟨htest, s', i', hbody, hlt, hs'⟩
      · exact ⟨s, i, by simp [repeatWhile, htest], h, hdone⟩
      · obtain ⟨s'', i'', hloop, hend⟩ := ih i' hs' (by omega)
        exact ⟨s'', i'', by simp [repeatWhile, htest, hbody, hloop], hend⟩

/-! ## Balanced nodes -/

theorem Color.not_red {c : Color} (h : c = .black) : c ≠ .red := by
  simp [h]

namespace Tree

variable {β : Type} {side : Side} {c : Color} {near far t : Tree β} {k : UInt32} {e : β} {n : ℕ}

theorem Balanced.join_red (hnear : Balanced n near) (hfar : Balanced n far)
    (hn : near.color = .black) (hf : far.color = .black) :
    Balanced n (join side .red near k e far) := by
  cases side with
  | left => exact .red hnear hfar hn hf
  | right => exact .red hfar hnear hf hn

theorem Balanced.join_black (hnear : Balanced n near) (hfar : Balanced n far) :
    Balanced (n + 1) (join side .black near k e far) := by
  cases side with
  | left => exact .black hnear hfar
  | right => exact .black hfar hnear

/-- The subtrees of a balanced red node have its black depth, and black roots. -/
theorem Balanced.of_join_red (h : Balanced n (join side .red near k e far)) :
    Balanced n near ∧ Balanced n far ∧ near.color = .black ∧ far.color = .black := by
  cases side with
  | left =>
      cases h with
      | red hl hr hleft hright => exact ⟨hl, hr, hleft, hright⟩
  | right =>
      cases h with
      | red hl hr hleft hright => exact ⟨hr, hl, hright, hleft⟩

/-- The subtrees of a balanced black node have one black depth less. -/
theorem Balanced.of_join_black (h : Balanced n (join side .black near k e far)) :
    ∃ m, n = m + 1 ∧ Balanced m near ∧ Balanced m far := by
  cases side with
  | left =>
      cases h with
      | black hl hr => exact ⟨_, rfl, hl, hr⟩
  | right =>
      cases h with
      | black hl hr => exact ⟨_, rfl, hr, hl⟩

/-- A red root that becomes black is one more black node on every path. -/
theorem Balanced.blacken (h : Balanced n t) (hred : t.color = .red) :
    Balanced (n + 1) (t.paint .black) := by
  cases h with
  | leaf => exact absurd hred (Color.not_red rfl)
  | red hl hr _ _ => exact .black hl hr
  | black _ _ => exact absurd hred (Color.not_red rfl)

/-- The colour of the root does not matter to the entries. -/
theorem toList_join_color (c' : Color) :
    (join side c near k e far).toList = (join side c' near k e far).toList := by
  cases side <;> rfl

/-- A rotation keeps the entries in their order, whatever becomes of the colours. -/
theorem toList_rotate {inner : Tree β} {c₁ c₂ c₃ c₄ : Color} {kx ky : UInt32} {x y : β} :
    (join side c₁ (join side c₂ near kx x inner) ky y far).toList =
      (join side c₃ near kx x (join side c₄ inner ky y far)).toList := by
  cases side <;> simp [join]

end Tree

/-! ## Room in a context -/

/-- A red node may come into the open place: the next frame is black. -/
def TakesRed : List (Frame α) → Prop
  | [] => False
  | f :: _ => f.color = .black

/-- There is room in the context for a black root with this many black nodes on every path below it
    and itself counted. -/
inductive Room : ℕ → List (Frame α) → Prop
  | top {n : ℕ} : Room n []
  | black {n : ℕ} {f : Frame α} {frames : List (Frame α)} (hcolor : f.color = .black)
      (hother : Balanced n f.other) (h : Room (n + 1) frames) : Room n (f :: frames)
  | red {n : ℕ} {f : Frame α} {frames : List (Frame α)} (hcolor : f.color = .red)
      (hother : Balanced n f.other) (hblack : f.other.color = .black) (hred : TakesRed frames)
      (h : Room n frames) : Room n (f :: frames)

variable {f g : Frame α} {frames : List (Frame α)} {t s : Tree (ℕ × α)} {n q : ℕ} {a : Links α}
  {other : Multiset (ℕ × Slot α)}

/-- **What fits into the open place makes up a red-black tree.** -/
theorem Room.sound (h : Room n frames) (ht : Balanced n t)
    (hred : t.color = .red → TakesRed frames) : (plug frames t).Sound := by
  induction h generalizing t with
  | top =>
      cases hc : t.color with
      | red => exact (hred hc).elim
      | black => exact ⟨hc, _, ht⟩
  -- a black frame takes a tree of either colour
  | @black n f frames hcolor hother _ ih =>
      refine ih ?_ ?_
      · rw [Frame.fill, hcolor]
        exact ht.join_black hother
      · rw [Frame.fill, hcolor, color_join]
        exact (absurd · (Color.not_red rfl))
  | @red n f frames hcolor hother hblack htakes _ ih =>
      have ht' : t.color = .black := by
        cases hc : t.color with
        | red => exact absurd hcolor (Color.not_red (hred hc))
        | black => rfl
      refine ih ?_ fun _ => htakes
      rw [Frame.fill, hcolor]
      exact ht.join_red hother ht' hblack

/-- Above a red node is room for a black root only. -/
theorem Room.of_red (h : Room n (f :: frames)) (hf : f.color = .red) :
    Balanced n f.other ∧ f.other.color = .black ∧ TakesRed frames ∧ Room n frames := by
  cases h with
  | black hcolor _ _ => exact absurd hf (Color.not_red hcolor)
  | red _ hother hblack hred h => exact ⟨hother, hblack, hred, h⟩

/-- Wherever there is room for a tree, its sibling has the depth that there is room for. -/
theorem Room.sibling (h : Room n (f :: frames)) : Balanced n f.other := by
  cases h with
  | black _ hother _ => exact hother
  | red _ hother _ _ _ => exact hother

/-- Where a black node is missing the sibling cannot be empty. So the rotations that look at its
    children find a node. -/
theorem Room.sibling_ne_leaf (h : Room (n + 1) (f :: frames)) : f.other ≠ leaf := by
  have hsibling := h.sibling
  intro hleaf
  rw [hleaf] at hsibling
  exact nomatch hsibling

/-- Above a black node is room for one black node more. -/
theorem Room.of_black (h : Room n (f :: frames)) (hf : f.color = .black) :
    Balanced n f.other ∧ Room (n + 1) frames := by
  cases h with
  | black _ hother h => exact ⟨hother, h⟩
  | red hcolor _ _ _ _ => exact absurd hcolor (Color.not_red hf)

/-- The context of a subtree has room for it. -/
theorem Tree.Sound.room (h : (plug frames t).Sound) :
    ∃ n, Balanced n t ∧ Room n frames ∧ (t.color = .red → TakesRed frames) := by
  induction frames generalizing t with
  | nil =>
      obtain ⟨hblack, n, hn⟩ := h
      exact ⟨n, hn, .top, (absurd · (Color.not_red hblack))⟩
  | cons f frames ih =>
      obtain ⟨n, hfill, hroom, htakes⟩ := ih h
      rw [Frame.fill] at hfill
      cases hcolor : f.color with
      | red =>
          rw [hcolor] at hfill
          obtain ⟨ht, hother, hblack, hother'⟩ := hfill.of_join_red
          have htakes' : TakesRed frames := htakes (by rw [Frame.fill, hcolor, color_join])
          exact ⟨n, ht, .red hcolor hother hother' htakes' hroom,
            (absurd · (Color.not_red hblack))⟩
      | black =>
          rw [hcolor] at hfill
          obtain ⟨m, rfl, ht, hother⟩ := hfill.of_join_black
          exact ⟨m, ht, .black hcolor hother hroom, fun _ => hcolor⟩

/-- What is in the open place, and on the other side, matters to the entries by its own ones. -/
theorem toList_fill_congr {f' : Frame α} (hside : f'.side = f.side) (hkey : f'.key = f.key)
    (hentry : f'.entry = f.entry) (hother : f'.other.toList = f.other.toList)
    (h : t.toList = s.toList) : (f'.fill t).toList = (f.fill s).toList := by
  rw [Frame.fill, Frame.fill, hside, hkey, hentry]
  cases f.side <;> simp [join, h, hother]

/-- What is plugged into a context may be replaced by anything with the same entries. -/
theorem toList_plug_congr (h : t.toList = s.toList) :
    (plug frames t).toList = (plug frames s).toList := by
  induction frames generalizing t s with
  | nil => exact h
  | cons f frames ih => exact ih (toList_fill_congr rfl rfl rfl rfl h)

theorem plug_ne_leaf (h : t ≠ leaf) : plug frames t ≠ leaf := by
  induction frames generalizing t with
  | nil => exact h
  | cons f frames ih => exact ih (f.fill_ne_leaf t)

/-! ## The other side of a frame -/

/-- A frame's node with its other side left open. -/
def Frame.across (f : Frame α) (t : Tree (ℕ × α)) : Frame α :=
  { f with side := f.side.opp, other := t }

theorem Frame.fill_across (f : Frame α) (t : Tree (ℕ × α)) : (f.across t).fill f.other = f.fill t :=
  join_opp f.side f.color f.other f.key f.entry t

/-- The focus can go over to the sibling, with the same whole around it. -/
theorem plug_across (f : Frame α) (frames : List (Frame α)) (t : Tree (ℕ × α)) :
    plug (f.across t :: frames) f.other = plug (f :: frames) t := by
  rw [plug, Frame.fill_across, plug]

/-- The colour of the sibling can be read in the arena. -/
theorem Shows.color_other (h : Shows a q (plug (f :: frames) t) other) :
    a.color f.other.number = some f.other.color := by
  rw [← plug_across] at h
  exact h.color

/-- A subtree beside the open place is painted. -/
theorem Shows.paint_other (h : Shows a q (plug (f :: frames) t) other) (c : Color)
    (hc : f.other = leaf → c = .black) :
    ∃ a', a.paint f.other.number c = some a' ∧
      Shows a' q (plug ({ f with other := f.other.paint c } :: frames) t) other := by
  rw [← plug_across] at h
  obtain ⟨a', hstep, h'⟩ := h.paint c hc
  refine ⟨a', hstep, ?_⟩
  rw [← plug_across]
  exact h'

/-! ## A red node below a red one -/

theorem ne_leaf_of_red (h : t.color = .red) : t ≠ leaf := by
  rintro rfl
  exact nomatch h

namespace Shows

/-- At the root no node above is red: the sentinel there is black. -/
theorem isBelowRed_nil (h : Shows a q (plug [] t) other) (ht : t ≠ leaf) :
    a.isBelowRed t.number = some false := by
  have hcolor : a.color 0 = some .black := by simp [Links.color, h.read_nil]
  simp [Links.isBelowRed, h.parent (absurd · ht), above, hcolor]

/-- Below a frame the test reads the colour of that frame. -/
theorem isBelowRed_cons (h : Shows a q (plug (f :: frames) t) other) (ht : t ≠ leaf) :
    a.isBelowRed t.number = some (decide (f.color = .red)) := by
  have hparent : Shows a q (plug frames (f.fill t)) other := h
  have hcolor := hparent.color
  rw [Frame.fill, number_join, color_join] at hcolor
  simp [Links.isBelowRed, h.parent (absurd · ht), above, hcolor]

/-- After this the red node below a red one hangs on the same side as its parent does. -/
theorem turnOut (h : Shows a q (plug (f :: g :: frames) t) other) (hf : f.color = .red)
    (hother : Balanced n f.other) (hblack : f.other.color = .black) (ht : Balanced n t)
    (hred : t.color = .red) :
    ∃ a' f' t', a.turnOut g.side f.entry.1 t.number = some (a', t'.number) ∧
      Shows a' q (plug (f' :: g :: frames) t') other ∧ f'.side = g.side ∧
      Balanced n f'.other ∧ f'.other.color = .black ∧ Balanced n t' ∧ t'.color = .red ∧
      (f'.fill t').toList = (f.fill t).toList := by
  have hparent : Shows a q (plug (g :: frames) (f.fill t)) other := h
  rcases Side.eq_or_eq_opp f.side g.side with hside | hside
  · -- it does already: on the inner side hangs another subtree
    have hinner : a.child g.side.opp f.entry.1 = some f.other.number := by
      rw [← hside]
      exact hparent.child_opp
    have hne := h.number_other_ne (Or.inl (ne_leaf_of_red hred))
    refine ⟨a, f, t, ?_, h, hside, hother, hblack, ht, hred, rfl⟩
    simp [Links.turnOut, hinner, hne]
  · have hinner : a.child g.side.opp f.entry.1 = some t.number := by
      rw [← hside]
      exact hparent.child
    obtain ⟨c, near, k, e, far, rfl⟩ := exists_join g.side (ne_leaf_of_red hred)
    rw [color_join] at hred
    subst hred
    obtain ⟨hnear, hfar, hnear', hfar'⟩ := ht.of_join_red
    have hfill : f.fill (join g.side .red near k e far) =
        join g.side .red f.other f.key f.entry (join g.side .red near k e far) := by
      rw [Frame.fill, hside, join_opp, hf]
    rw [hfill] at hparent
    obtain ⟨a', hstep, h'⟩ := hparent.rotate
    refine ⟨a', ⟨g.side, .red, k, e, far⟩, join g.side .red f.other f.key f.entry near, ?_, h', rfl,
      hfar, hfar', hother.join_red hnear hblack hnear', color_join, ?_⟩
    · rw [number_join] at hinner ⊢
      simp [Links.turnOut, hinner, hstep]
    · rw [hfill]
      exact toList_rotate

/-- Where the parent's sibling is red, the grandparent becomes the red node to go on with. -/
theorem recolor (h : Shows a q (plug (f :: g :: frames) t) other) :
    ∃ a', a.recolor f.entry.1 g.other.number g.entry.1 = some a' ∧
      Shows a' q (plug frames (.join g.side .red ((f.fill t).paint .black) g.key g.entry
        (g.other.paint .black))) other ∧
      (join g.side .red ((f.fill t).paint .black) g.key g.entry (g.other.paint .black)).toList =
        (g.fill (f.fill t)).toList := by
  have hparent : Shows a q (plug (g :: frames) (f.fill t)) other := h
  obtain ⟨a₁, hstep₁, h₁⟩ := hparent.paint .black fun _ => rfl
  obtain ⟨a₂, hstep₂, h₂⟩ := h₁.paint_other .black fun _ => rfl
  have hgrand : Shows a₂ q (plug frames (({ g with other := g.other.paint .black } : Frame α).fill
      ((f.fill t).paint .black))) other := h₂
  obtain ⟨a₃, hstep₃, h₃⟩ := hgrand.paint .red (absurd · (Frame.fill_ne_leaf _ _))
  rw [Frame.number_fill] at hstep₁ hstep₃
  rw [Frame.fill, paint_join] at h₃
  refine ⟨a₃, by simp [Links.recolor, hstep₁, hstep₂, hstep₃], h₃, ?_⟩
  show (Frame.fill ⟨g.side, .red, g.key, g.entry, _⟩ _).toList = _
  exact toList_fill_congr rfl rfl rfl (toList_paint _ _) (toList_paint _ _)

/-- Where the parent's sibling is black, the parent comes up and is black. -/
theorem bringUp (h : Shows a q (plug (f :: g :: frames) t) other) (hf : f.color = .red)
    (hother : Balanced n f.other) (hblack : f.other.color = .black) (ht : Balanced n t)
    (hred : t.color = .red) :
    ∃ (a' : Links α) (f' : Frame α) (t' : Tree (ℕ × α)),
      a.bringUp g.side f.entry.1 t.number = some (a', t'.number) ∧
      Shows a' q (plug (⟨g.side, .black, f'.key, f'.entry,
        join g.side .red f'.other g.key g.entry g.other⟩ :: frames) t') other ∧
      Balanced n f'.other ∧ f'.other.color = .black ∧ Balanced n t' ∧ t'.color = .red ∧
      (join g.side .black t' f'.key f'.entry
        (join g.side .red f'.other g.key g.entry g.other)).toList = (g.fill (f.fill t)).toList := by
  obtain ⟨a₁, f', t', hstep₁, h₁, hside, hother', hblack', ht', hred', htoList⟩ :=
    h.turnOut hf hother hblack ht hred
  have hparent : Shows a₁ q (plug (g :: frames) (f'.fill t')) other := h₁
  have hp : a₁.parent t'.number = some f'.entry.1 := h₁.parent (absurd · (ne_leaf_of_red hred'))
  have hgp : a₁.parent f'.entry.1 = some g.entry.1 := by
    rw [← f'.number_fill t']
    exact hparent.parent (absurd · (f'.fill_ne_leaf t'))
  obtain ⟨a₂, hstep₂, h₂⟩ := hparent.paint .black fun _ => rfl
  have hgrand : Shows a₂ q (plug frames (g.fill ((f'.fill t').paint .black))) other := h₂
  obtain ⟨a₃, hstep₃, h₃⟩ := hgrand.paint .red (absurd · (Frame.fill_ne_leaf _ _))
  rw [Frame.number_fill] at hstep₂ hstep₃
  -- the parent is on the same side of the grandparent as the red node is of the parent
  have hturned : Shows a₃ q (plug frames (.join g.side.opp .red g.other g.key g.entry
      (.join g.side.opp .black f'.other f'.key f'.entry t'))) other := by
    rw [join_opp, join_opp]
    rw [Frame.fill, Frame.fill, paint_join, paint_join, hside] at h₃
    exact h₃
  obtain ⟨a₄, hstep₄, h₄⟩ := hturned.rotate
  rw [join_opp, join_opp] at h₄
  refine ⟨a₄, f', t', by simp [Links.bringUp, hstep₁, hp, hgp, hstep₂, hstep₃, hstep₄], h₄, hother',
    hblack', ht', hred', ?_⟩
  have hbelow : (join g.side .black t' f'.key f'.entry f'.other).toList = (f.fill t).toList := by
    rw [← htoList, Frame.fill, hside]
    exact toList_join_color _
  refine toList_rotate.symm.trans (?_ : (Frame.fill g (join g.side .black _ _ _ _)).toList = _)
  exact toList_fill_congr rfl rfl rfl rfl hbelow

/-- **One turn of the loop.** The red node that the loop goes on with is nearer to the root. -/
theorem liftRed (h : Shows a q (plug (f :: g :: frames) t) other) (hf : f.color = .red)
    (hred : t.color = .red) (ht : Balanced n t) (hroom : Room n (f :: g :: frames)) :
    ∃ a' n' frames' t', a.liftRed t.number = some (a', t'.number) ∧
      Shows a' q (plug frames' t') other ∧ t'.color = .red ∧ Balanced n' t' ∧ Room n' frames' ∧
      frames'.length < (f :: g :: frames).length ∧
      (plug frames' t').toList = (plug (f :: g :: frames) t).toList := by
  obtain ⟨hother, hblack, hg, hroom⟩ := hroom.of_red hf
  obtain ⟨huncle, hroom⟩ := hroom.of_black hg
  have hparent : Shows a q (plug (g :: frames) (f.fill t)) other := h
  have hgrand : Shows a q (plug frames (g.fill (f.fill t))) other := h
  have hp : a.parent t.number = some f.entry.1 := h.parent (absurd · (ne_leaf_of_red hred))
  have hgp : a.parent f.entry.1 = some g.entry.1 := by
    rw [← f.number_fill t]
    exact hparent.parent (absurd · (f.fill_ne_leaf t))
  have hside : a.sideOf g.entry.1 f.entry.1 = some g.side := by
    rw [← f.number_fill t]
    exact hparent.sideOf (Or.inl (f.fill_ne_leaf t))
  have hchild : a.child g.side.opp g.entry.1 = some g.other.number := hgrand.child_opp
  have hcolor := hparent.color_other
  -- a red uncle takes the colours, and the defect goes up; a black one needs rotations, which end it
  cases hred' : g.other.color with
  | red =>
      obtain ⟨a', hstep, h', htoList⟩ := h.recolor
      refine ⟨a', n + 1, frames, _, ?_, h', color_join, ?_, hroom, ?_, ?_⟩
      · rw [hred'] at hcolor
        rw [number_join]
        simp [Links.liftRed, hp, hgp, hside, hchild, hcolor, hstep]
      · refine Balanced.join_red ?_ (huncle.blacken hred') (color_paint_black _) (color_paint_black _)
        rw [Frame.fill, paint_join]
        exact ht.join_black hother
      · rw [List.length_cons, List.length_cons]
        omega
      · exact toList_plug_congr htoList
  | black =>
      obtain ⟨a', f', t', hstep, h', hother', hblack', ht', hred'', htoList⟩ :=
        h.bringUp hf hother hblack ht hred
      refine ⟨a', n, _, t', ?_, h', hred'', ht', .black rfl ?_ hroom, by simp, ?_⟩
      · rw [hred'] at hcolor
        simp [Links.liftRed, hp, hgp, hside, hchild, hcolor, hstep]
      · exact hother'.join_red huncle hblack' hred'
      · exact toList_plug_congr htoList

end Shows

/-- Seen from the node that the loop is at: a red subtree, and room for it but for its colour. -/
structure RedAt (q : ℕ) (other : Multiset (ℕ × Slot α)) (entries : List (UInt32 × ℕ × α))
    (s : Links α × ℕ) (n : ℕ) (frames : List (Frame α)) (t : Tree (ℕ × α)) : Prop where
  shown : Shows s.1 q (plug frames t) other
  number : t.number = s.2
  red : t.color = .red
  balanced : Balanced n t
  room : Room n frames
  entries : (plug frames t).toList = entries

namespace RedAt

variable {entries : List (UInt32 × ℕ × α)} {s : Links α × ℕ}

/-- The loop ends where a red node may be. Else it gets nearer to the root. -/
theorem turn (h : RedAt q other entries s n frames t) :
    (s.1.isBelowRed s.2 = some false ∧ (frames = [] ∨ TakesRed frames)) ∨
      (s.1.isBelowRed s.2 = some true ∧ ∃ s' n' frames' t', s.1.liftRed s.2 = some s' ∧
        frames'.length < frames.length ∧ RedAt q other entries s' n' frames' t') := by
  have hleaf := ne_leaf_of_red h.red
  have hshown := h.shown
  rw [← h.number]
  cases frames with
  | nil => exact Or.inl ⟨hshown.isBelowRed_nil hleaf, Or.inl rfl⟩
  | cons f frames =>
      have htest := hshown.isBelowRed_cons hleaf
      cases hf : f.color with
      | black => exact Or.inl ⟨by rw [htest, hf]; rfl, Or.inr hf⟩
      | red =>
          refine Or.inr ⟨by rw [htest, hf]; rfl, ?_⟩
          cases frames with
          | nil => exact (h.room.of_red hf).2.2.1.elim
          | cons g frames =>
              obtain ⟨a', n', frames', t', hstep, h', hred', ht', hroom', hlt, htoList⟩ :=
                hshown.liftRed hf h.red h.balanced h.room
              exact ⟨_, n', frames', t', hstep, hlt, h', rfl, hred', ht', hroom',
                htoList.trans h.entries⟩

end RedAt

/-- **From a red node upwards.** The loop ends, with the same entries under the rules of a red-black
    tree. -/
theorem Shows.mendRed (h : Shows a q (plug frames t) other) (hred : t.color = .red)
    (ht : Balanced n t) (hroom : Room n frames) :
    ∃ a' t', a.mendRed t.number = some a' ∧ Shows a' q t' other ∧ t'.Sound ∧
      t'.toList = (plug frames t).toList := by
  have hstart : RedAt q other (plug frames t).toList (a, t.number) n frames t :=
    ⟨h, rfl, hred, ht, hroom, rfl⟩
  have hturns := h.lt_turns
  -- the frames above get fewer, turn by turn
  obtain ⟨s, ⟨n', frames', t'⟩, hloop, h', hdone⟩ := repeatWhile_spec
    (fun s (i : ℕ × List (Frame α) × Tree (ℕ × α)) =>
      RedAt q other (plug frames t).toList s i.1 i.2.1 i.2.2)
    (fun i => i.2.1.length) (fun i => i.2.1 = [] ∨ TakesRed i.2.1)
    (fun s i hs => by
      rcases hs.turn with ⟨htest, hdone⟩ | ⟨htest, s', n', frames', t', hstep, hlt, hs'⟩
      · exact Or.inl ⟨htest, hdone⟩
      · exact Or.inr ⟨htest, s', (n', frames', t'), hstep, hlt, hs'⟩)
    (n, frames, t) hstart (by omega : frames.length < a.turns)
  have hwhole : Shows s.1 q (plug [] (plug frames' t')) other := h'.shown
  obtain ⟨a', hstep, hpainted⟩ := hwhole.paint .black fun _ => rfl
  have hbalanced : ∃ m, Balanced m (plug frames' t') := by
    rcases hdone with rfl | htakes
    · exact ⟨n', h'.balanced⟩
    · exact (h'.room.sound h'.balanced fun _ => htakes).balanced
  obtain ⟨m, hm⟩ := hbalanced
  refine ⟨a', (plug frames' t').paint .black, ?_, hpainted,
    ⟨color_paint_black _, hm.paint_black⟩, ?_⟩
  · rw [← h'.shown.root] at hstep
    simp [Links.mendRed, hloop, hstep]
  · rw [toList_paint, h'.entries]

/-! ## A side that lacks a black node -/

/-- Of a subtree that was to have one black node more on every path than `n`: under a black root it
    has `n`, and a red root need only become black. -/
inductive Lacks {β : Type} (n : ℕ) (t : Tree β) : Prop
  | black (h : Balanced n t) (hblack : t.color = .black)
  | red (h : Balanced (n + 1) (t.paint .black)) (hred : t.color = .red)

namespace Shows

/-- At the root nothing is missing any more, whatever its colour. -/
theorem isShort_nil (h : Shows a q (plug [] t) other) : a.isShort t.number = some false := by
  have hroot : a.root = t.number := h.root
  simp [Links.isShort, hroot]

/-- Below a frame a black focus is short, a red one can take up the missing black. -/
theorem isShort_cons (h : Shows a q (plug (f :: frames) t) other) :
    a.isShort t.number = some (decide (t.color = .black)) := by
  simp [Links.isShort, h.number_ne_root, h.color]

/-- After this the sibling is black. If it was red, the parent is red now and lies deeper. -/
theorem blackSibling (h : Shows a q (plug (f :: frames) t) other)
    (hway : t = leaf → q = above (f :: frames)) (hroom : Room (n + 1) (f :: frames)) :
    ∃ (a' : Links α) (f' : Frame α) (frames' : List (Frame α)),
      a.blackSibling f.side f.entry.1 t.number f.other.number = some (a', f'.other.number) ∧
      Shows a' q (plug (f' :: frames') t) other ∧ f'.side = f.side ∧ f'.entry = f.entry ∧
      f'.other.color = .black ∧ Room (n + 1) (f' :: frames') ∧
      frames'.length ≤ frames.length + 1 ∧ (f'.color = .black → frames'.length ≤ frames.length) ∧
      (plug (f' :: frames') t).toList = (plug (f :: frames) t).toList := by
  have hcolor := h.color_other
  cases hw : f.other.color with
  | black =>
      refine ⟨a, f, frames, ?_, h, rfl, rfl, hw, hroom, Nat.le_succ _, fun _ => Nat.le_refl _, rfl⟩
      simp [Links.blackSibling, hcolor, hw]
  | red =>
      obtain ⟨c, near, k, e, far, hother⟩ := exists_join f.side (ne_leaf_of_red hw)
      obtain ⟨side, c', k', e', sibling⟩ := f
      dsimp only at *
      subst hother
      rw [color_join] at hw hcolor
      subst hw
      obtain rfl : c' = .black := by
        cases c' with
        | red => exact absurd (hroom.of_red rfl).2.1 (by simp)
        | black => rfl
      obtain ⟨hsibling, hroom⟩ := hroom.of_black rfl
      obtain ⟨hnear, hfar, hblack, -⟩ := hsibling.of_join_red
      -- the sibling becomes black and the parent red, and the sibling comes up
      obtain ⟨a₁, hstep₁, h₁⟩ := h.paint_other .black fun _ => rfl
      obtain ⟨a₂, hstep₂, h₂⟩ := (show Shows a₁ q (plug frames (Frame.fill _ t)) other from h₁).paint
        .red (absurd · (Frame.fill_ne_leaf _ _))
      rw [Frame.fill, paint_join, paint_join] at h₂
      obtain ⟨a₃, hstep₃, h₃⟩ := h₂.rotate
      have h₃ : Shows a₃ q (plug (⟨side, .red, k', e', near⟩ :: ⟨side, .black, k, e, far⟩ :: frames) t)
          other := h₃
      have hparent := h₃.parent hway
      have hchild := (show Shows a₃ q (plug (⟨side, .black, k, e, far⟩ :: frames)
        (join side .red t k' e' near)) other from h₃).child_opp
      refine ⟨a₃, _, _, ?_, h₃, rfl, rfl, hblack, .red rfl hnear hblack rfl (.black rfl hfar hroom),
        Nat.le_refl _, (absurd · (Ne.symm (Color.not_red rfl))), toList_plug_congr toList_rotate⟩
      rw [number_join] at hstep₁ hcolor ⊢
      rw [Frame.number_fill] at hstep₂
      simp [Links.blackSibling, hcolor, hstep₁, hstep₂, hstep₃, hparent, hchild, above]

/-- The children of the sibling, the inner one first. -/
theorem nephews {c : Color} {near far : Tree (ℕ × α)} {k : UInt32} {e : ℕ × α}
    (h : Shows a q (plug (f :: frames) t) other) (hother : f.other = join f.side c near k e far) :
    a.child f.side f.other.number = some near.number ∧ a.color near.number = some near.color ∧
      a.child f.side.opp f.other.number = some far.number ∧ a.color far.number = some far.color := by
  rw [← plug_across, hother] at h
  rw [hother, number_join]
  have hinner : Shows a q (plug (⟨f.side, c, k, e, far⟩ :: f.across t :: frames) near) other := h
  exact ⟨h.child, hinner.color, h.child_opp, hinner.color_other⟩

/-- A sibling with two black children becomes red, and its parent is what lacks a black node. -/
theorem passUp (h : Shows a q (plug (f :: frames) t) other)
    (hway : t = leaf → q = above (f :: frames)) (hother : f.other ≠ leaf) :
    ∃ a', a.passUp t.number f.other.number = some (a', f.entry.1) ∧
      Shows a' q (plug frames (({ f with other := f.other.paint .red } : Frame α).fill t)) other := by
  obtain ⟨a', hstep, h'⟩ := h.paint_other .red (absurd · hother)
  have hparent := h'.parent hway
  exact ⟨a', by simp [Links.passUp, hstep, hparent, above], h'⟩

/-- After this the outer child of the sibling is red. -/
theorem redOuter {near far : Tree (ℕ × α)} {k : UInt32} {e : ℕ × α}
    (h : Shows a q (plug (f :: frames) t) other) (hway : t = leaf → q = above (f :: frames))
    (hother : f.other = join f.side .black near k e far) (hnear : Balanced n near)
    (hfar : Balanced n far) (hred : ¬(near.color = .black ∧ far.color = .black)) :
    ∃ a' near' k' e' far', a.redOuter f.side t.number f.other.number = some (a', e'.1) ∧
      Shows a' q (plug ({ f with other := join f.side .black near' k' e' far' } :: frames) t) other ∧
      Balanced n near' ∧ Balanced n far' ∧ far'.color = .red ∧
      (join f.side .black near' k' e' far').toList = f.other.toList := by
  obtain ⟨side, c, k₀, e₀, sibling⟩ := f
  dsimp only at *
  subst hother
  -- the sibling, seen from the other side of the parent
  have hsibling : Shows a q (plug (⟨side.opp, c, k₀, e₀, t⟩ :: frames)
      (join side .black near k e far)) other := by
    rw [← plug_across] at h
    exact h
  have hchild := hsibling.child_opp
  have hinner : Shows a q (plug (⟨side, .black, k, e, far⟩ :: ⟨side.opp, c, k₀, e₀, t⟩ :: frames)
      near) other := hsibling
  have hcolor := hinner.color_other
  cases hfar' : far.color with
  | red =>
      refine ⟨a, near, k, e, far, ?_, h, hnear, hfar, hfar', rfl⟩
      simp [Links.redOuter, hchild, hcolor, hfar']
  | black =>
      have hnear' : near.color = .red := by
        cases hc : near.color with
        | red => rfl
        | black => exact absurd ⟨hc, hfar'⟩ hred
      obtain ⟨c₁, near₁, k₁, e₁, far₁, rfl⟩ := exists_join side (ne_leaf_of_red hnear')
      rw [color_join] at hnear'
      subst hnear'
      obtain ⟨hnear₁, hfar₁, -, hblack₁⟩ := hnear.of_join_red
      -- the inner child becomes black and the sibling red, and the inner child comes up
      have hnearer := hsibling.child
      obtain ⟨a₁, hstep₁, h₁⟩ := hinner.paint .black fun _ => rfl
      obtain ⟨a₂, hstep₂, h₂⟩ := (show Shows a₁ q (plug (_ :: frames) (Frame.fill _ _)) other from
        h₁).paint .red (absurd · (Frame.fill_ne_leaf _ _))
      rw [Frame.fill, paint_join, paint_join, ← join_opp, ← join_opp side .black] at h₂
      obtain ⟨a₃, hstep₃, h₃⟩ := h₂.rotate
      rw [join_opp, join_opp] at h₃
      have h₃ : Shows a₃ q (plug (⟨side, c, k₀, e₀, join side .black near₁ k₁ e₁
          (join side .red far₁ k e far)⟩ :: frames) t) other := by
        rw [← plug_across]
        exact h₃
      have hparent := h₃.parent hway
      have hnext := (show Shows a₃ q (plug frames (Frame.fill _ t)) other from h₃).child_opp
      refine ⟨a₃, near₁, k₁, e₁, _, ?_, h₃, hnear₁, hfar₁.join_red hfar hblack₁ hfar', color_join,
        toList_rotate.symm⟩
      rw [number_join] at hstep₁ hnearer hnext ⊢
      rw [Frame.number_fill] at hstep₂
      simp [Links.redOuter, hchild, hcolor, hfar', hnearer, hstep₁, hstep₂, hstep₃, hparent, hnext,
        above]

/-- The sibling's outer child makes up for the black node that is taken over from the sibling. -/
theorem borrow {near far : Tree (ℕ × α)} {k : UInt32} {e : ℕ × α}
    (h : Shows a q (plug (f :: frames) t) other) (hway : t = leaf → q = above (f :: frames))
    (hother : f.other = join f.side .black near k e far) (hnear : Balanced n near)
    (hfar : Balanced n far) (hred : ¬(near.color = .black ∧ far.color = .black))
    (ht : Balanced n t) (hroom : Room (n + 1) (f :: frames)) :
    ∃ a' t', a.borrow f.side t.number f.other.number = some (a', t'.number) ∧
      Shows a' q t' other ∧ t'.Sound ∧ t' ≠ leaf ∧ t'.toList = (plug (f :: frames) t).toList := by
  obtain ⟨a₁, near', k', e', far', hstep₁, h₁, hnear', hfar', hred', htoList⟩ :=
    h.redOuter hway hother hnear hfar hred
  obtain ⟨side, c, k₀, e₀, sibling⟩ := f
  dsimp only at *
  have hparent := h₁.parent hway
  have hcolor := (show Shows a₁ q (plug frames (Frame.fill _ t)) other from h₁).color
  rw [Frame.number_fill, Frame.color_fill] at hcolor
  -- the sibling takes the colour of the parent, and the parent becomes black
  obtain ⟨a₂, hstep₂, h₂⟩ := h₁.paint_other c (absurd · join_ne_leaf)
  obtain ⟨a₃, hstep₃, h₃⟩ := (show Shows a₂ q (plug frames (Frame.fill _ t)) other from h₂).paint
    .black (absurd · (Frame.fill_ne_leaf _ _))
  rw [Frame.fill, paint_join, paint_join] at h₃
  have h₃ : Shows a₃ q (plug (⟨side, .black, k₀, e₀, join side c near' k' e' far'⟩ :: frames) t)
      other := h₃
  -- so does the red child
  rw [← plug_across] at h₃
  have hchild := h₃.child_opp
  obtain ⟨a₄, hstep₄, h₄⟩ := (show Shows a₃ q (plug (⟨side, c, k', e', far'⟩ ::
    ⟨side.opp, .black, k₀, e₀, t⟩ :: frames) near') other from h₃).paint_other .black fun _ => rfl
  have h₄ : Shows a₄ q (plug (⟨side, .black, k₀, e₀, join side c near' k' e' (far'.paint .black)⟩ ::
      frames) t) other := by
    rw [← plug_across]
    exact h₄
  obtain ⟨a₅, hstep₅, h₅⟩ := (show Shows a₄ q (plug frames (join side .black t k₀ e₀
    (join side c near' k' e' (far'.paint .black)))) other from h₄).rotate
  have hentries : (join side c (join side .black t k₀ e₀ near') k' e' (far'.paint .black)).toList =
      ((⟨side, c, k₀, e₀, sibling⟩ : Frame α).fill t).toList := by
    refine (toList_rotate : _ = ((⟨side, c, k₀, e₀, join side .black near' k' e'
      (far'.paint .black)⟩ : Frame α).fill t).toList).trans ?_
    refine toList_fill_congr rfl rfl rfl (Eq.trans ?_ htoList) rfl
    cases side <;> simp [join]
  refine ⟨a₅, _, ?_, h₅, ?_, plug_ne_leaf join_ne_leaf,
    toList_plug_congr hentries⟩
  · rw [number_join] at hstep₂
    rw [Frame.number_fill] at hstep₃
    simp [Links.borrow, hstep₁, hparent, above, hcolor, hstep₂, hstep₃, hchild, hstep₄, hstep₅,
      h₅.root]
  · have hblack : Balanced (n + 1) (join side .black t k₀ e₀ near') := ht.join_black hnear'
    have hfar := hfar'.blacken hred'
    cases c with
    | red =>
        obtain ⟨-, -, htakes, hroom⟩ := hroom.of_red rfl
        exact hroom.sound (hblack.join_red hfar color_join (color_paint_black _)) fun _ => htakes
    | black =>
        obtain ⟨-, hroom⟩ := hroom.of_black rfl
        exact hroom.sound (hblack.join_black hfar) (absurd · (Color.not_red color_join))

end Shows

/-- Seen from the node that the loop is at: a subtree that lacks a black node, and room for it with
    one. The sentinel knows the way up if it is there. -/
structure ShortAt (q : ℕ) (other : Multiset (ℕ × Slot α)) (entries : List (UInt32 × ℕ × α))
    (s : Links α × ℕ) (n : ℕ) (frames : List (Frame α)) (t : Tree (ℕ × α)) : Prop where
  shown : Shows s.1 q (plug frames t) other
  number : t.number = s.2
  way : t = leaf → q = above frames
  lacks : Lacks n t
  room : Room (n + 1) frames
  entries : (plug frames t).toList = entries

namespace ShortAt

variable {entries : List (UInt32 × ℕ × α)} {s : Links α × ℕ}

/-- What gets less: the frames above, or else the colour turns red. -/
def weight (frames : List (Frame α)) (t : Tree (ℕ × α)) : ℕ :=
  2 * frames.length + if t.color = .black then 1 else 0

/-- Where the sibling's children are black the parent lacks a black node. -/
theorem passUp {near far : Tree (ℕ × α)} {k : UInt32} {e : ℕ × α}
    (h : Shows a q (plug (f :: frames) t) other) (hway : t = leaf → q = above (f :: frames))
    (ht : Balanced n t) (hroom : Room (n + 1) (f :: frames))
    (hother : f.other = join f.side .black near k e far) (hnear : near.color = .black)
    (hfar : far.color = .black) :
    ∃ s' n' t', a.passUp t.number f.other.number = some s' ∧ t'.color = f.color ∧
      ShortAt q other (plug (f :: frames) t).toList s' n' frames t' := by
  have hsibling := hroom.sibling
  rw [hother] at hsibling
  obtain ⟨m, hm, hnear', hfar'⟩ := hsibling.of_join_black
  obtain rfl : n = m := Nat.succ.inj hm
  have hred : Balanced n (f.other.paint .red) := by
    rw [hother, paint_join]
    exact hnear'.join_red hfar' hnear hfar
  have hred' : (f.other.paint .red).color = .red := by rw [hother, paint_join, color_join]
  obtain ⟨a', hstep, h'⟩ := h.passUp hway (by rw [hother]; exact join_ne_leaf)
  -- the parent's node, with the sibling as it is now
  let g : Frame α := { f with other := f.other.paint .red }
  have hentries : (plug frames (g.fill t)).toList = (plug (f :: frames) t).toList :=
    toList_plug_congr (toList_fill_congr rfl rfl rfl (toList_paint _ _) rfl)
  have hway' : g.fill t = leaf → q = above frames := fun hleaf => absurd hleaf (g.fill_ne_leaf t)
  have hcolor' : (g.fill t).color = f.color := g.color_fill t
  refine ⟨(a', f.entry.1), ?_⟩
  cases hcolor : f.color with
  | red =>
      obtain ⟨-, -, -, hroom⟩ := hroom.of_red hcolor
      have hlacks : Balanced (n + 1) ((g.fill t).paint .black) := by
        rw [Frame.fill, paint_join]
        exact ht.join_black hred
      exact ⟨n, g.fill t, hstep, hcolor'.trans hcolor, h', g.number_fill t, hway',
        .red hlacks (hcolor'.trans hcolor), hroom, hentries⟩
  | black =>
      obtain ⟨-, hroom⟩ := hroom.of_black hcolor
      have hlacks : Balanced (n + 1) (g.fill t) := by
        rw [Frame.fill, show g.color = .black from hcolor]
        exact ht.join_black hred
      exact ⟨n + 1, g.fill t, hstep, hcolor'.trans hcolor, h', g.number_fill t, hway',
        .black hlacks (hcolor'.trans hcolor), hroom, hentries⟩

/-- The loop ends at a red node or at the root. Else it gets nearer to the root, or to a red node. -/
theorem turn (h : ShortAt q other entries s n frames t) :
    (s.1.isShort s.2 = some false ∧ (t.color = .red ∨ frames = [])) ∨
      (s.1.isShort s.2 = some true ∧ ∃ s' n' frames' t', s.1.liftShort s.2 = some s' ∧
        weight frames' t' < weight frames t ∧ ShortAt q other entries s' n' frames' t') := by
  have hshown := h.shown
  rw [← h.number]
  cases frames with
  | nil => exact Or.inl ⟨hshown.isShort_nil, Or.inr rfl⟩
  | cons f frames =>
      have htest := hshown.isShort_cons
      obtain ⟨ht, hblack⟩ | ⟨-, hred⟩ := h.lacks
      · refine Or.inr ⟨by rw [htest, hblack]; rfl, ?_⟩
        -- first the sibling is made black, which makes the parent red if it was not
        obtain ⟨a₁, f', frames', hstep₁, h₁, hside, hentry, hblack', hroom, hle, hle', htoList⟩ :=
          hshown.blackSibling h.way h.room
        have hway : t = leaf → q = above (f' :: frames') := by
          rw [above, hentry]
          exact h.way
        obtain ⟨c, near, k, e, far, hother⟩ := exists_join f'.side hroom.sibling_ne_leaf
        obtain rfl : c = .black := by
          rw [hother, color_join] at hblack'
          exact hblack'
        have hsibling := hroom.sibling
        rw [hother] at hsibling
        obtain ⟨m, hm, hnear, hfar⟩ := hsibling.of_join_black
        obtain rfl : n = m := Nat.succ.inj hm
        obtain ⟨hchild, hcolor, hchild', hcolor'⟩ := h₁.nephews hother
        have hp := hshown.parent h.way
        have hplace := hshown.sideOf (Or.inr h.room.sibling_ne_leaf)
        have hnext := (show Shows s.1 q (plug frames (f.fill t)) other from hshown).child_opp
        rw [← htoList.trans h.entries]
        rw [← hside] at hstep₁ hplace hnext
        have hweight : weight (f :: frames) t = 2 * (frames.length + 1) + 1 := by
          rw [weight, if_pos hblack, List.length_cons]
        rw [hweight]
        by_cases hboth : near.color = .black ∧ far.color = .black
        · obtain ⟨s', n', t', hstep, hparent, h'⟩ :=
            passUp h₁ hway ht hroom hother hboth.1 hboth.2
          refine ⟨s', n', frames', t', ?_, ?_, h'⟩
          · simp [Links.liftShort, hp, above, hplace, hnext, hstep₁, hchild, hcolor, hchild', hcolor',
              hboth, hstep]
          · rw [weight, hparent]
            split
            · next hc =>
              have := hle' hc
              omega
            · omega
        · obtain ⟨a', t', hstep, h', hsound, hleaf, hentries⟩ :=
            h₁.borrow hway hother hnear hfar hboth ht hroom
          obtain ⟨hblack', m, hm⟩ := hsound
          refine ⟨(a', t'.number), m, [], t', ?_, ?_, h', rfl, (absurd · hleaf), .black hm hblack',
            .top, hentries⟩
          · simp [Links.liftShort, hp, above, hplace, hnext, hstep₁, hchild, hcolor, hchild', hcolor',
              hboth, hstep]
          · rw [weight, if_pos hblack', List.length_nil]
            omega
      · exact Or.inl ⟨by rw [htest, hred]; rfl, Or.inl hred⟩

end ShortAt

/-- **From a subtree that lacks a black node upwards.** The loop ends, with the same entries under the
    rules of a red-black tree. -/
theorem Shows.mendShort (h : Shows a q (plug frames t) other) (hway : t = leaf → q = above frames)
    (ht : Lacks n t) (hroom : Room (n + 1) frames) :
    ∃ a' t', a.mendShort t.number = some a' ∧ Shows a' q t' other ∧ t'.Sound ∧
      t'.toList = (plug frames t).toList := by
  have hstart : ShortAt q other (plug frames t).toList (a, t.number) n frames t :=
    ⟨h, rfl, hway, ht, hroom, rfl⟩
  have hturns : ShortAt.weight frames t < a.turns := by
    have := h.lt_turns
    rw [ShortAt.weight]
    split <;> omega
  obtain ⟨s, ⟨n', frames', t'⟩, hloop, h', hdone⟩ := repeatWhile_spec
    (fun s (i : ℕ × List (Frame α) × Tree (ℕ × α)) =>
      ShortAt q other (plug frames t).toList s i.1 i.2.1 i.2.2)
    (fun i => ShortAt.weight i.2.1 i.2.2) (fun i => i.2.2.color = .red ∨ i.2.1 = [])
    (fun s i hs => by
      rcases hs.turn with ⟨htest, hdone⟩ | ⟨htest, s', n', frames', t', hstep, hlt, hs'⟩
      · exact Or.inl ⟨htest, hdone⟩
      · exact Or.inr ⟨htest, s', (n', frames', t'), hstep, hlt, hs'⟩)
    (n, frames, t) hstart hturns
  obtain ⟨a', hstep, h''⟩ := h'.shown.paint .black fun _ => rfl
  refine ⟨a', plug frames' (t'.paint .black), ?_, h'', ?_, ?_⟩
  · rw [h'.number] at hstep
    simp [Links.mendShort, hloop, hstep]
  · rcases h'.lacks with ⟨hbalanced, hblack⟩ | ⟨hbalanced, -⟩
    · obtain rfl : frames' = [] := hdone.resolve_left (Color.not_red hblack)
      exact ⟨color_paint_black _, hbalanced.paint_black⟩
    · exact h'.room.sound hbalanced (absurd · (Color.not_red (color_paint_black _)))
  · rw [← h'.entries]
    exact toList_plug_congr (toList_paint _ _)

end GossipRing.RedBlack
