import GossipRing.Proofs.ArenaMending

/-!
# Searching and taking out in an arena

Toward: a node is found by its key and taken out of the tree, and its slot is outside the tree then.
A node with two sides gives its place to the next one, which stands leftmost on its right side.

* **`before`**, **`after`** — the entries of a context on either side of the open place.
* **`Shows.seek`** — a search goes to the key, or to the place that it belongs in. `SoughtAt` is what
  each turn of it keeps, as `LeftAt` is on the way to the left (`Shows.leftmost`).
* **`Shows.transplant`**, **`Shows.takeLeftmost`**, **`Holds.succeed`** — one node comes in the place
  of another.
* **`Shows.detach`** — a node is taken out. What comes up may lack a black node (`Misses`), and
  `Shows.cut` makes up for it.
-/

namespace GossipRing.RedBlack

variable {α : Type}

open RedBlack.Tree

/-! ## Entries around the open place -/

/-- The entries of the frames that come before the open place. -/
def before : List (Frame α) → List (UInt32 × ℕ × α)
  | [] => []
  | f :: frames =>
    match f.side with
    | .left => before frames
    | .right => before frames ++ f.other.toList ++ [(f.key, f.entry)]

/-- The entries of the frames that come after the open place. -/
def after : List (Frame α) → List (UInt32 × ℕ × α)
  | [] => []
  | f :: frames =>
    match f.side with
    | .left => (f.key, f.entry) :: f.other.toList ++ after frames
    | .right => after frames

/-- In the whole, the entries of the focus stand between those before its context and those after. -/
theorem toList_plug (frames : List (Frame α)) (t : Tree (ℕ × α)) :
    (plug frames t).toList = before frames ++ t.toList ++ after frames := by
  induction frames generalizing t with
  | nil => simp [plug, before, after]
  | cons f frames ih =>
      rw [plug, ih, Frame.fill, before, after]
      cases f.side <;> simp [join]

/-- The key belongs into the open place. -/
def Between (key : UInt32) (frames : List (Frame α)) : Prop :=
  (∀ e ∈ before frames, e.1 < key) ∧ (∀ e ∈ after frames, key < e.1)

theorem plug_append (inner outer : List (Frame α)) (t : Tree (ℕ × α)) :
    plug (inner ++ outer) t = plug outer (plug inner t) := by
  induction inner generalizing t with
  | nil => rfl
  | cons f inner ih => exact ih (f.fill t)

variable {a : Links α} {q n : ℕ} {f : Frame α} {frames inner : List (Frame α)} {t l r x : Tree (ℕ × α)}
  {other : Multiset (ℕ × Slot α)} {c : Color} {k key : UInt32} {e : ℕ × α}

theorem between_nil (key : UInt32) : Between key ([] : List (Frame α)) :=
  ⟨List.forall_mem_nil _, List.forall_mem_nil _⟩

/-- A key that is smaller than the node's lies between the bounds of the left subtree. -/
theorem Between.left (h : Between key frames) (hr : Ordered (node c l k e r)) (hlt : key < k) :
    Between key (⟨.left, c, k, e, r⟩ :: frames) := by
  obtain ⟨-, -, -, hkr⟩ := (ordered_node c l k e r).mp hr
  refine ⟨h.1, ?_⟩
  intro entry hentry
  rw [after, List.cons_append, List.mem_cons, List.mem_append] at hentry
  rcases hentry with rfl | hmem | hmem
  · exact hlt
  · exact UInt32.lt_trans hlt (hkr entry hmem)
  · exact h.2 entry hmem

/-- A key that is greater than the node's lies between the bounds of the right subtree. -/
theorem Between.right (h : Between key frames) (hl : Ordered (node c l k e r)) (hlt : k < key) :
    Between key (⟨.right, c, k, e, l⟩ :: frames) := by
  obtain ⟨-, -, hlk, -⟩ := (ordered_node c l k e r).mp hl
  refine ⟨?_, h.2⟩
  intro entry hentry
  rw [before, List.mem_append, List.mem_append, List.mem_singleton] at hentry
  rcases hentry with (hmem | hmem) | rfl
  · exact h.1 entry hmem
  · exact UInt32.lt_trans (hlk entry hmem) hlt
  · exact hlt

namespace Shows

/-- A node does not stand in the sentinel's slot. -/
theorem number_ne_zero (h : Shows a q (plug frames t) other) (ht : t ≠ leaf) : t.number ≠ 0 := by
  have hcells := (plug_iff.mp h).1
  exact (hcells.congr (add_assoc _ _ _)).ne_zero (by simp [number_mem_cells ht])

/-- The slot of a node, its children from the left to the right. -/
theorem read_node (h : Shows a q (plug frames (node c l k e r)) other) :
    a.slots[e.1]? = some ⟨k, some e.2, c, l.number, r.number, above frames⟩ :=
  (show Shows a q (plug frames (join .left c l k e r)) other from h).read

/-! ## Searching -/

theorem isApart (h : Shows a q (plug frames (node c l k e r)) other) (key : UInt32) :
    a.isApart key e.1 = some (decide (k ≠ key)) := by
  have hne : e.1 ≠ 0 := h.number_ne_zero node_ne_leaf
  rw [Links.isApart, if_neg hne, h.read_node]
  rfl

theorem descend (h : Shows a q (plug frames (node c l k e r)) other) (key : UInt32) :
    a.descend key e.1 = some (e.1, if key < k then l.number else r.number) := by
  rw [Links.descend, h.read_node]
  rfl

end Shows

/-- Seen from the slot that a search is at: the tree below it, and a context that the key belongs in. -/
structure SoughtAt (t : Tree (ℕ × α)) (key : UInt32) (s : ℕ × ℕ) (frames : List (Frame α))
    (u : Tree (ℕ × α)) : Prop where
  whole : plug frames u = t
  place : s = (above frames, u.number)
  ordered : Ordered u
  between : Between key frames

/-- The search ends at the key or at a leaf. Else it goes on to a smaller tree. -/
theorem SoughtAt.turn {s : ℕ × ℕ} {u : Tree (ℕ × α)} (h : SoughtAt t key s frames u)
    (hshown : Shows a q t other) :
    (a.isApart key s.2 = some false ∧ (u = leaf ∨ ∃ c l e r, u = node c l key e r)) ∨
      (a.isApart key s.2 = some true ∧ ∃ s' frames' u', a.descend key s.2 = some s' ∧
        u'.size < u.size ∧ SoughtAt t key s' frames' u') := by
  obtain ⟨hplug, rfl, hordered, hbetween⟩ := h
  rw [← hplug] at hshown
  cases u with
  | leaf => exact Or.inl ⟨rfl, Or.inl rfl⟩
  | node c l k e r =>
      obtain ⟨hl, hr, -, -⟩ := (ordered_node c l k e r).mp hordered
      have htest := hshown.isApart key
      have hstep := hshown.descend key
      by_cases hkey : k = key
      · subst hkey
        exact Or.inl ⟨by simp [htest], Or.inr ⟨c, l, e, r, rfl⟩⟩
      · refine Or.inr ⟨by simp [htest, hkey], ?_⟩
        by_cases hlt : key < k
        · rw [if_pos hlt] at hstep
          refine ⟨_, ⟨.left, c, k, e, r⟩ :: frames, l, hstep, ?_, hplug, rfl, hl,
            hbetween.left hordered hlt⟩
          rw [size]
          omega
        · have hgt : k < key := UInt32.lt_of_le_of_ne (UInt32.not_lt.mp hlt) hkey
          rw [if_neg hlt] at hstep
          refine ⟨_, ⟨.right, c, k, e, l⟩ :: frames, r, hstep, ?_, hplug, rfl, hr,
            hbetween.right hordered hgt⟩
          rw [size]
          omega

namespace Shows

/-- **A search** goes to the node with the key, or to the place in which there is none. -/
theorem seek (h : Shows a q t other) (hordered : Ordered t) (key : UInt32) :
    ∃ frames u, a.seek key = some (above frames, u.number) ∧ plug frames u = t ∧
      (u = leaf ∧ Between key frames ∨ ∃ c l e r, u = node c l key e r) := by
  have hwhole : Shows a q (plug [] t) other := h
  have hstart : SoughtAt t key (0, a.root) [] t :=
    ⟨rfl, by rw [h.root]; rfl, hordered, between_nil key⟩
  have hturns := hwhole.lt_turns
  -- the tree below gets smaller, turn by turn
  obtain ⟨_, ⟨frames, u⟩, hloop, ⟨hplug, rfl, -, hbetween⟩, hend⟩ := repeatWhile_spec
    (fun s (i : List (Frame α) × Tree (ℕ × α)) => SoughtAt t key s i.1 i.2) (fun i => i.2.size)
    (fun i => i.2 = leaf ∨ ∃ c l e r, i.2 = node c l key e r)
    (fun s i hs => by
      rcases hs.turn h with ⟨htest, hend⟩ | ⟨htest, s', frames, u, hstep, hlt, hs'⟩
      · exact Or.inl ⟨htest, hend⟩
      · exact Or.inr ⟨htest, s', (frames, u), hstep, hlt, hs'⟩)
    ([], t) hstart (by omega : t.size < a.turns)
  exact ⟨frames, u, hloop, hplug, hend.imp_left fun hleaf => ⟨hleaf, hbetween⟩⟩

end Shows

/-! ## Moving nodes -/

theorem Tree.nilParent_of_leaf {new old : ℕ} (h : t = leaf) : t.nilParent new old = new := by
  subst h
  rfl

theorem Tree.nilParent_of_ne_leaf (h : t ≠ leaf) (new old : ℕ) : t.nilParent new old = old := by
  cases t with
  | leaf => exact absurd rfl h
  | node c l k e r => rfl

/-- **A subtree comes in the place of `u`**, whose own cell is not changed. The sentinel is told if
    the subtree is a leaf. -/
theorem Holds.transplant {u p : ℕ} {slot : Slot α} {s : Tree (ℕ × α)}
    {rest : Multiset (ℕ × Slot α)}
    (h : Holds a.slots ({(0, .nil q)} + ({(u, slot)} + (around u frames + (s.cells p + rest)))))
    (hroot : a.root = outermost u frames) (hparent : slot.parent = above frames) :
    ∃ a', a.transplant u s.number = some a' ∧
      Holds a'.slots ({(0, .nil (s.nilParent (above frames) q))} + ({(u, slot)} +
        (around s.number frames + (s.cells (above frames) + rest)))) ∧
      a'.root = outermost s.number frames := by
  have hread : a.slots[u]? = some slot := h.read (by simp)
  obtain ⟨a₁, hstep₁, h₁, hroot₁⟩ := h.hang hroot .left s.number
  have h₁ : Holds a₁.slots ({(0, .nil q)} + s.cells p +
      ({(u, slot)} + around s.number frames + rest)) := h₁.congr (by abel)
  obtain ⟨a₂, hstep₂, h₂, hroot₂⟩ := h₁.tell (above frames)
  refine ⟨a₂, ?_, h₂.congr (by abel), hroot₂.trans hroot₁⟩
  simp [Links.transplant, Links.parent, hread, hparent, hstep₁, hstep₂]

/-- A node takes over a subtree that is not a leaf. -/
theorem Holds.takeOver {i near far p p' : ℕ} {side : Side} {v : α} {rest : Multiset (ℕ × Slot α)}
    (h : Holds a.slots ({(0, .nil q)} + ({(i, .link side k v c near far p)} + (t.cells p' + rest))))
    (ht : t ≠ leaf) :
    ∃ a₁ a₂, a.setChild side i t.number = some a₁ ∧ a₁.setParent t.number i = some a₂ ∧
      Holds a₂.slots ({(0, .nil q)} + ({(i, .link side k v c t.number far p)} + (t.cells i + rest))) ∧
      a₂.root = a.root := by
  have hparts : Holds a.slots ({(i, .link side k v c near far p)} +
      ({(0, .nil q)} + t.cells p' + rest)) := h.congr (by abel)
  obtain ⟨a₁, hstep₁, h₁, hroot₁⟩ := hparts.setChild t.number
  have h₁ : Holds a₁.slots ({(0, .nil q)} + t.cells p' +
      ({(i, .link side k v c t.number far p)} + rest)) := h₁.congr (by abel)
  obtain ⟨a₂, hstep₂, h₂, hroot₂⟩ := h₁.tell i
  rw [nilParent_of_ne_leaf ht] at h₂
  exact ⟨a₁, a₂, hstep₁, hstep₂, h₂.congr (by abel), hroot₂.trans hroot₁⟩

namespace Shows

/-- **A node with at most one child is taken out**, and the child comes in its place. The slot of the
    node is outside the tree then. -/
theorem transplant {side : Side} (h : Shows a q (plug frames (join side c leaf k e x)) other) :
    ∃ a', a.transplant e.1 x.number = some a' ∧
      Shows a' (x.nilParent (above frames) q) (plug frames x)
        ({(e.1, .link side k e.2 c 0 x.number (above frames))} + other) := by
  obtain ⟨hcells, hroot⟩ := plug_iff.mp h
  rw [cells_join, number_join, cells_leaf, number_leaf] at hcells
  rw [number_join] at hroot
  have hparts : Holds a.slots ({(0, .nil q)} + ({(e.1, .link side k e.2 c 0 x.number (above frames))} +
      (around e.1 frames + (x.cells e.1 + other)))) := hcells.congr (by abel)
  obtain ⟨a', hstep, h', hroot'⟩ := hparts.transplant hroot Slot.parent_link
  exact ⟨a', hstep, plug_iff.mpr ⟨h'.congr (by abel), hroot'⟩⟩

end Shows

/-- Seen from the slot that the way to the left is at: a subtree of `t`, below frames that are all open
    to the left. -/
structure LeftAt (t : Tree (ℕ × α)) (i : ℕ) (inner : List (Frame α)) (u : Tree (ℕ × α)) : Prop where
  whole : plug inner u = t
  left : ∀ f ∈ inner, f.side = .left
  ne_leaf : u ≠ leaf
  place : u.number = i

/-- The way ends where there is nothing to the left. Else it goes on to a smaller subtree. -/
theorem LeftAt.turn {i : ℕ} {u : Tree (ℕ × α)} (h : LeftAt t i inner u)
    (hshown : Shows a q (plug frames t) other) :
    (a.hasLeft i = some false ∧ ∃ c k e x, u = node c leaf k e x) ∨
      (a.hasLeft i = some true ∧ ∃ i' inner' u', a.child .left i = some i' ∧ u'.size < u.size ∧
        LeftAt t i' inner' u') := by
  obtain ⟨hplug, hleft, hu, rfl⟩ := h
  rw [← hplug, ← plug_append] at hshown
  cases u with
  | leaf => exact absurd rfl hu
  | node c l k e r =>
      have hu : Shows a q (plug (inner ++ frames) (join .left c l k e r)) other := hshown
      have hchild := hu.child
      by_cases hl : l = leaf
      · subst hl
        exact Or.inl ⟨by simp [Links.hasLeft, hchild], c, k, e, r, rfl⟩
      · have hbelow : Shows a q (plug (⟨.left, c, k, e, r⟩ :: (inner ++ frames)) l) other := hu
        have hne := hbelow.number_ne_zero hl
        refine Or.inr ⟨by simp [Links.hasLeft, hchild, hne], l.number,
          ⟨.left, c, k, e, r⟩ :: inner, l, hchild, ?_, hplug, ?_, hl, rfl⟩
        · rw [size]
          omega
        · exact List.forall_mem_cons.mpr ⟨rfl, hleft⟩

/-- **The leftmost node** of a subtree. -/
theorem Shows.leftmost (h : Shows a q (plug frames t) other) (ht : t ≠ leaf) :
    ∃ (inner : List (Frame α)) (c : Color) (k : UInt32) (e : ℕ × α) (x : Tree (ℕ × α)),
      plug inner (node c leaf k e x) = t ∧ (∀ f ∈ inner, f.side = .left) ∧
      a.leftmost t.number = some e.1 := by
  have hstart : LeftAt t t.number [] t := ⟨rfl, List.forall_mem_nil _, ht, rfl⟩
  have hturns := h.lt_turns
  obtain ⟨_, ⟨inner, _⟩, hloop, ⟨hplug, hleft, -, rfl⟩, c, k, e, x, rfl⟩ := repeatWhile_spec
    (fun i (j : List (Frame α) × Tree (ℕ × α)) => LeftAt t i j.1 j.2) (fun j => j.2.size)
    (fun j => ∃ c k e x, j.2 = node c leaf k e x)
    (fun i j hi => by
      rcases hi.turn h with ⟨htest, hend⟩ | ⟨htest, i', inner, u, hstep, hlt, hi'⟩
      · exact Or.inl ⟨htest, hend⟩
      · exact Or.inr ⟨htest, i', (inner, u), hstep, hlt, hi'⟩)
    ([], t) hstart (by omega : t.size < a.turns)
  exact ⟨inner, c, k, e, x, hplug, hleft, hloop⟩

/-- Nothing comes before an open place that is all the way to the left. -/
theorem before_eq_nil (h : ∀ f ∈ frames, f.side = .left) : before frames = [] := by
  induction frames with
  | nil => rfl
  | cons f frames ih =>
      rw [before, h f List.mem_cons_self]
      exact ih fun g hg => h g (List.mem_cons_of_mem _ hg)

/-! ## Taking a node out -/

variable {cy : Color} {ky : UInt32} {y z : ℕ × α}

/-- Every frame has a cell among those around the open place. -/
theorem entry_mem_around (hole : ℕ) (inner : List (Frame α)) (f : Frame α) (frames : List (Frame α)) :
    f.entry.1 ∈ (around hole (inner ++ f :: frames)).map Prod.fst := by
  induction inner generalizing hole with
  | nil => simp [around]
  | cons g inner ih =>
      rw [List.cons_append, around, Multiset.map_add, Multiset.map_add]
      simp only [Multiset.mem_add]
      exact Or.inr (Or.inr (ih g.entry.1))

/-- **The leftmost node on the right side of `z` leaves its place**, to which its own right side
    comes, and is above the rest of the right side then. What `z` says of that side is out of date. -/
theorem Shows.takeLeftmost
    (h : Shows a q (plug frames (node c l k z (plug inner (node cy leaf ky y x)))) other) :
    ∃ a' p i, a.takeLeftmost z.1 y.1 x.number = some a' ∧
      Holds a'.slots ({(0, .nil (x.nilParent (above (inner ++ ⟨.right, c, ky, y, l⟩ :: frames)) q))} +
        ({(z.1, ⟨k, some z.2, c, l.number, i, above frames⟩)} + (around z.1 frames +
          ((node cy leaf ky y (plug inner x)).cells p + (l.cells z.1 + other))))) ∧
      a'.root = outermost z.1 frames := by
  have hinner : Shows a q (plug (inner ++ ⟨.right, c, k, z, l⟩ :: frames)
      (join .left cy leaf ky y x)) other := by
    rw [plug_append]
    exact h
  have hparent := hinner.parent (absurd · join_ne_leaf)
  rw [number_join] at hparent
  -- the leftmost node may be the right child itself, which only has to be told of its parent
  cases inner with
  | nil =>
      obtain ⟨hcells, hroot⟩ := plug_iff.mp h
      have hparts : Holds a.slots ({(0, .nil q)} + x.cells y.1 +
          ({(z.1, ⟨k, some z.2, c, l.number, y.1, above frames⟩)} + around z.1 frames +
            {(y.1, ⟨ky, some y.2, cy, 0, x.number, z.1⟩)} + l.cells z.1 + other)) :=
        hcells.congr (by simp only [plug, Tree.cells, number]; abel)
      obtain ⟨a', hstep, h', hroot'⟩ := hparts.tell y.1
      refine ⟨a', z.1, y.1, ?_, h'.congr ?_, hroot'.trans hroot⟩
      · simp [Links.takeLeftmost, hparent, above, hstep]
      · simp only [plug, Tree.cells, number, List.nil_append, above]
        abel
  | cons f inner =>
      have hne : f.entry.1 ≠ z.1 := by
        have hcells := (plug_iff.mp hinner).1
        rw [List.cons_append, around] at hcells
        have hparts : Holds a.slots ({(f.entry.1,
            .link f.side f.key f.entry.2 f.color (join .left cy leaf ky y x).number f.other.number
              (above (inner ++ ⟨.right, c, k, z, l⟩ :: frames)))} +
            (around f.entry.1 (inner ++ ⟨.right, c, k, z, l⟩ :: frames) + ({(0, .nil q)} +
              (join .left cy leaf ky y x).cells f.entry.1 + f.other.cells f.entry.1 + other))) :=
          hcells.congr (by rw [above]; abel)
        refine hparts.ne (by simp) ?_
        rw [Multiset.map_add]
        exact Multiset.mem_add.mpr (Or.inl (entry_mem_around _ inner ⟨.right, c, k, z, l⟩ frames))
      -- farther down it leaves its place to its right child, and takes the subtree over
      obtain ⟨a₁, hstep₁, h₁⟩ := hinner.transplant
      rw [plug_append] at h₁
      have hright : plug (f :: inner) x ≠ leaf := by
        rw [plug]
        exact plug_ne_leaf (f.fill_ne_leaf x)
      generalize plug (f :: inner) x = right at h₁ hright ⊢
      have hz : Shows a₁ _ (plug frames (join .right c right k z l)) _ := h₁
      have hchild := hz.child
      obtain ⟨hcells, hroot⟩ := plug_iff.mp hz
      rw [cells_join, number_join] at hcells
      have hslot : Slot.link .left ky y.2 cy 0 x.number f.entry.1 =
          .link .right ky y.2 cy x.number 0 f.entry.1 := rfl
      have hparts : Holds a₁.slots ({(0, .nil (x.nilParent f.entry.1 q))} +
          ({(y.1, .link .right ky y.2 cy x.number 0 f.entry.1)} + (right.cells z.1 +
            ({(z.1, .link .right k z.2 c right.number l.number (above frames))} + around z.1 frames +
              l.cells z.1 + other)))) :=
        hcells.congr (by simp only [List.cons_append, above, hslot]; abel)
      obtain ⟨a₂, a₃, hstep₂, hstep₃, h₃, hroot₃⟩ := hparts.takeOver hright
      refine ⟨a₃, f.entry.1, right.number, ?_, h₃.congr ?_, ?_⟩
      · simp [Links.takeLeftmost, hparent, above, hne, hstep₁, hchild, hstep₂, hstep₃]
      · simp only [List.cons_append, above, Tree.cells, Slot.link, number_leaf]
        abel
      · rw [hroot₃, hroot, number_join]

/-- **A node without a left side comes in the place of `z`**, with the left side and the colour of
    `z`. -/
theorem Holds.succeed {p i : ℕ}
    (h : Holds a.slots ({(0, .nil q)} + ({(z.1, ⟨k, some z.2, c, l.number, i, above frames⟩)} +
      (around z.1 frames + ((node cy leaf ky y r).cells p + (l.cells z.1 + other))))))
    (hroot : a.root = outermost z.1 frames) (hl : l ≠ leaf) :
    ∃ a', a.succeed z.1 y.1 = some a' ∧ Shows a' q (plug frames (node c l ky y r))
      ({(z.1, ⟨k, some z.2, c, l.number, i, above frames⟩)} + other) := by
  obtain ⟨a₁, hstep₁, h₁, hroot₁⟩ := h.transplant hroot rfl
  rw [nilParent, Tree.cells] at h₁
  have hchild : a₁.child .left z.1 = some l.number := by
    have hread : a₁.slots[z.1]? = some ⟨k, some z.2, c, l.number, i, above frames⟩ :=
      h₁.read (by simp)
    simp [Links.child, hread, Slot.child]
  -- the left side goes over
  have h₁ : Holds a₁.slots ({(0, .nil q)} +
      ({(y.1, .link .left ky y.2 cy 0 r.number (above frames))} + (l.cells z.1 +
        ({(z.1, ⟨k, some z.2, c, l.number, i, above frames⟩)} + around y.1 frames + r.cells y.1 +
          other)))) := h₁.congr (by simp only [Slot.link, number, cells_leaf]; abel)
  obtain ⟨a₂, a₃, hstep₂, hstep₃, h₃, hroot₃⟩ := h₁.takeOver hl
  -- and the colour
  have hcolor : a₃.color z.1 = some c := by
    have hread : a₃.slots[z.1]? = some ⟨k, some z.2, c, l.number, i, above frames⟩ :=
      h₃.read (by simp)
    simp [Links.color, hread]
  have h₃ : Holds a₃.slots ({(y.1, .link .left ky y.2 cy l.number r.number (above frames))} +
      ({(0, .nil q)} + l.cells y.1 + {(z.1, ⟨k, some z.2, c, l.number, i, above frames⟩)} +
        around y.1 frames + r.cells y.1 + other)) := h₃.congr (by abel)
  obtain ⟨a₄, hstep₄, h₄, hroot₄⟩ := h₃.paint c
  refine ⟨a₄, ?_, Shows.plug_iff.mpr ⟨h₄.congr ?_, ?_⟩⟩
  · rw [number] at hstep₁
    simp [Links.succeed, hstep₁, hchild, hstep₂, hstep₃, hcolor, hstep₄]
  · simp only [Tree.cells, number, Slot.link]
    abel
  · rw [hroot₄, hroot₃, hroot₁]
    rfl

/-! ## What is missing where a node was taken out -/

/-- In the open place a node of this colour, with at most one child, has given way to that child. -/
def Misses (x : Tree (ℕ × α)) (frames : List (Frame α)) : Color → Prop
  | .black => ∃ n, Lacks n x ∧ Room (n + 1) frames
  | .red => ∃ n, Balanced n x ∧ x.color = .black ∧ Room n frames

/-- Taking a node with one empty subtree out of a balanced tree leaves its other subtree one black
    short, unless the node was red. -/
theorem Tree.Sound.misses {side : Side} (h : (plug frames (join side c leaf k e x)).Sound) :
    Misses x frames c := by
  obtain ⟨n, hbalanced, hroom, -⟩ := h.room
  cases c with
  | red =>
      obtain ⟨-, hx, -, hblack⟩ := hbalanced.of_join_red
      exact ⟨n, hx, hblack, hroom⟩
  | black =>
      obtain ⟨m, rfl, -, hx⟩ := hbalanced.of_join_black
      refine ⟨m, ?_, hroom⟩
      cases hcolor : x.color with
      | red => exact .red (hx.blacken hcolor) hcolor
      | black => exact .black hx hcolor

variable {g g' : Frame α}

theorem TakesRed.congr (h : TakesRed (inner ++ g :: frames)) (hcolor : g'.color = g.color) :
    TakesRed (inner ++ g' :: frames) := by
  cases inner with
  | nil => exact hcolor.trans h
  | cons f inner => exact h

/-- Of the frames only their colours and other sides matter to the room in them. -/
theorem Room.congr (h : Room n (inner ++ g :: frames)) (hcolor : g'.color = g.color)
    (hother : g'.other = g.other) : Room n (inner ++ g' :: frames) := by
  induction inner generalizing n with
  | nil =>
      cases h with
      | black hblack hsibling h => exact .black (hcolor.trans hblack) (hother ▸ hsibling) h
      | red hred hsibling hblack htakes h =>
          exact .red (hcolor.trans hred) (hother ▸ hsibling) (hother ▸ hblack) htakes h
  | cons f inner ih =>
      cases h with
      | black hblack hsibling h => exact .black hblack hsibling (ih h)
      | red hred hsibling hblack htakes h =>
          exact .red hred hsibling hblack (htakes.congr hcolor) (ih h)

/-- What is missing does not depend on the frames farther up but for their colours and siblings. -/
theorem Misses.congr (h : Misses x (inner ++ g :: frames) c) (hcolor : g'.color = g.color)
    (hother : g'.other = g.other) : Misses x (inner ++ g' :: frames) c := by
  cases c with
  | red =>
      obtain ⟨n, hx, hblack, hroom⟩ := h
      exact ⟨n, hx, hblack, hroom.congr hcolor hother⟩
  | black =>
      obtain ⟨n, hx, hroom⟩ := h
      exact ⟨n, hx, hroom.congr hcolor hother⟩

namespace Shows

/-- A node with two sides is taken out, and the next one comes in its place. -/
theorem detach_inner (h : Shows a q (plug frames (node c l k e r)) other)
    (hsound : (plug frames (node c l k e r)).Sound) (hl : l ≠ leaf) (hr : r ≠ leaf) :
    ∃ a' q' slot frames' x c', a.detach e.1 = some (a', x.number, c') ∧
      Shows a' q' (plug frames' x) ({(e.1, slot)} + other) ∧ (x = leaf → q' = above frames') ∧
      Misses x frames' c' ∧
      (plug frames' x).toList = before frames ++ (l.toList ++ r.toList) ++ after frames := by
  have hread := h.read_node
  have hleft : Shows a q (plug (⟨.left, c, k, e, r⟩ :: frames) l) other := h
  have hright : Shows a q (plug (⟨.right, c, k, e, l⟩ :: frames) r) other := h
  have hlne := hleft.number_ne_zero hl
  have hrne := hright.number_ne_zero hr
  obtain ⟨inner, cy, ky, y, x, rfl, hinner, hleftmost⟩ := hright.leftmost hr
  rw [← plug_append] at hright
  have hnext : Shows a q (plug (inner ++ ⟨.right, c, k, e, l⟩ :: frames) (join .left cy leaf ky y x))
      other := hright
  have hcolor := hnext.color
  have hchild : a.child .right y.1 = some x.number := hnext.child_opp
  rw [number_join, color_join] at hcolor
  -- the leftmost node of the right subtree comes in the place of the one that goes
  obtain ⟨a₁, p, i, hstep₁, h₁, hroot₁⟩ := h.takeLeftmost
  obtain ⟨a₂, hstep₂, h₂⟩ := h₁.succeed hroot₁ hl
  -- what is missing is missing where that node has been, with its colour
  have hmisses : Misses x (inner ++ ⟨.right, c, k, e, l⟩ :: frames) cy := by
    have hwhole : (plug (inner ++ ⟨.right, c, k, e, l⟩ :: frames)
        (join .left cy leaf ky y x)).Sound := by
      rw [plug_append]
      exact hsound
    exact hwhole.misses
  have hplug : plug (inner ++ ⟨.right, c, ky, y, l⟩ :: frames) x =
      plug frames (node c l ky y (plug inner x)) := plug_append ..
  rw [← hplug] at h₂
  refine ⟨a₂, _, _, inner ++ ⟨.right, c, ky, y, l⟩ :: frames, x, cy, ?_, h₂, nilParent_of_leaf,
    hmisses.congr rfl rfl, ?_⟩
  · simp [Links.detach, hread, hlne, hrne, hleftmost, hcolor, hchild, hstep₁, hstep₂]
  · simp [hplug, toList_plug, before_eq_nil hinner]

/-- **A node is taken out.** The entries but its own stay as they are. -/
theorem detach (h : Shows a q (plug frames (node c l k e r)) other)
    (hsound : (plug frames (node c l k e r)).Sound) :
    ∃ a' q' slot frames' x c', a.detach e.1 = some (a', x.number, c') ∧
      Shows a' q' (plug frames' x) ({(e.1, slot)} + other) ∧ (x = leaf → q' = above frames') ∧
      Misses x frames' c' ∧
      (plug frames' x).toList = before frames ++ (l.toList ++ r.toList) ++ after frames := by
  have hread := h.read_node
  -- with an empty subtree on one side, the other one moves up
  by_cases hl : l = leaf
  · subst hl
    have hside : Shows a q (plug frames (join .left c leaf k e r)) other := h
    have hsound : (plug frames (join .left c leaf k e r)).Sound := hsound
    obtain ⟨a', hstep, h'⟩ := hside.transplant
    refine ⟨a', _, _, frames, r, c, ?_, h', nilParent_of_leaf, hsound.misses, ?_⟩
    · simp [Links.detach, hread, hstep]
    · simp [toList_plug]
  · by_cases hr : r = leaf
    · subst hr
      have hside : Shows a q (plug frames (join .right c leaf k e l)) other := h
      have hsound : (plug frames (join .right c leaf k e l)).Sound := hsound
      have hne := (show Shows a q (plug (⟨.left, c, k, e, leaf⟩ :: frames) l) other from
        h).number_ne_zero hl
      obtain ⟨a', hstep, h'⟩ := hside.transplant
      refine ⟨a', _, _, frames, l, c, ?_, h', nilParent_of_leaf, hsound.misses, ?_⟩
      · simp [Links.detach, hread, hne, hstep]
      · simp [toList_plug]
    · exact h.detach_inner hsound hl hr

/-- **A node is taken out, and what it leaves is mended.** -/
theorem cut (h : Shows a q (plug frames (node c l k e r)) other)
    (hsound : (plug frames (node c l k e r)).Sound) :
    ∃ a' q' slot t', a.cut e.1 = some a' ∧ Shows a' q' t' ({(e.1, slot)} + other) ∧ t'.Sound ∧
      t'.toList = before frames ++ (l.toList ++ r.toList) ++ after frames := by
  obtain ⟨a₁, q', slot, frames', x, c', hstep₁, h₁, hway, hmisses, htoList⟩ := h.detach hsound
  cases c' with
  | red =>
      obtain ⟨n, hx, hblack, hroom⟩ := hmisses
      refine ⟨a₁, q', slot, plug frames' x, ?_, h₁, hroom.sound hx ?_, htoList⟩
      · simp [Links.cut, hstep₁]
      · exact (absurd · (Color.not_red hblack))
  | black =>
      obtain ⟨n, hx, hroom⟩ := hmisses
      obtain ⟨a₂, t', hstep₂, h₂, hsound', hentries⟩ := h₁.mendShort hway hx hroom
      refine ⟨a₂, q', slot, t', ?_, h₂, hsound', hentries.trans htoList⟩
      simp [Links.cut, hstep₁, hstep₂]

end Shows

end GossipRing.RedBlack
