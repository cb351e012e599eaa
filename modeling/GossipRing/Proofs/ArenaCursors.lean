import GossipRing.Proofs.ArenaChanges

/-!
# Cursors in an arena

Toward: a cursor that is set at a key goes through all entries from there on, one by one, and then
stops for good. It is found by a search down the tree, and from there it has to go up over the
parents as well as down.

* **`Links.Yields`** — all that calling `next` again and again brings to light. A derivation is finite,
  so whoever calls until there is nothing more comes to an end.
* **`On`** — the place of a cursor in the tree that the slots hold, and the entries still to come.
* **`Shows.successor`** — one step on: to the leftmost node on the right side, or up to the first frame
  that is open to the left (`ClimbAt`).
* **`Shows.lowerBound`**, **`Shows.upperBound`** — where a cursor is set. The search down keeps the last
  node at which it turned to the left (`NarrowAt`), and the upper bound goes by an entry with the key.
-/

namespace GossipRing.RedBlack

variable {α : Type}

open RedBlack.Tree

/-! ## What a cursor yields -/

namespace Links

/-- Calling `next` again and again yields these entries. After them it yields nothing and leaves the
    cursor where it is. Before each call the cursor shows what the call is about to yield. -/
inductive Yields (a : Links α) : ℕ → List (UInt32 × α) → Prop
  | nothing {i : ℕ} (hnext : a.next i = some (none, i)) (hkey : a.key? i = some none)
      (hvalue : a.value? i = some none) : Yields a i []
  | entry {i j : ℕ} {k : UInt32} {v : α} {rest : List (UInt32 × α)}
      (hnext : a.next i = some (some (k, v), j)) (hkey : a.key? i = some (some k))
      (hvalue : a.value? i = some (some v)) (hrest : Yields a j rest) : Yields a i ((k, v) :: rest)

/-- The cursor after `n` calls. -/
def advance (a : Links α) : ℕ → ℕ → Option ℕ
  | 0, i => some i
  | n + 1, i => do
    let (_, j) ← a.next i
    advance a n j

variable {a : Links α} {i : ℕ} {entries : List (UInt32 × α)}

namespace Yields

/-- One call takes the first of the entries. -/
theorem next (h : a.Yields i entries) :
    ∃ j, a.next i = some (entries.head?, j) ∧ a.Yields j entries.tail := by
  cases h with
  | nothing hnext hkey hvalue => exact ⟨i, hnext, .nothing hnext hkey hvalue⟩
  | entry hnext _ _ hrest => exact ⟨_, hnext, hrest⟩

/-- Where nothing is left the cursor stays. -/
theorem next_nil (h : a.Yields i []) : a.next i = some (none, i) := by
  cases h with
  | nothing hnext _ _ => exact hnext

/-- Where entries are yielded, the key in the slot is that of the first. -/
theorem key? (h : a.Yields i entries) : a.key? i = some (entries.head?.map Prod.fst) := by
  cases h with
  | nothing _ hkey _ => exact hkey
  | entry _ hkey _ _ => exact hkey

/-- Where entries are yielded, the value in the slot is that of the first. -/
theorem value? (h : a.Yields i entries) : a.value? i = some (entries.head?.map Prod.snd) := by
  cases h with
  | nothing _ _ hvalue => exact hvalue
  | entry _ _ hvalue _ => exact hvalue

/-- `n` calls take the first `n` entries. -/
theorem advance (h : a.Yields i entries) (n : ℕ) :
    ∃ j, a.advance n i = some j ∧ a.Yields j (entries.drop n) := by
  induction n generalizing i entries with
  | zero => exact ⟨i, rfl, h⟩
  | succ n ih =>
      obtain ⟨j, hnext, hrest⟩ := h.next
      obtain ⟨j', hadvance, hdrop⟩ := ih hrest
      refine ⟨j', by simp [Links.advance, hnext, hadvance], ?_⟩
      rwa [List.drop_tail] at hdrop

end Yields

end Links

/-! ## The place of a cursor -/

/-- The cursor is in this tree on the first of these entries, and they are all that is still to
    come. -/
inductive On (t : Tree (ℕ × α)) : ℕ → List (UInt32 × ℕ × α) → Prop
  | exhausted : On t 0 []
  | entry {frames : List (Frame α)} {c : Color} {l r : Tree (ℕ × α)} {k : UInt32} {e : ℕ × α}
      (hplug : plug frames (node c l k e r) = t) : On t e.1 ((k, e) :: (r.toList ++ after frames))

/-- What comes after the focus in two contexts: first what the inner one has, then the outer one. -/
theorem after_append (inner outer : List (Frame α)) :
    after (inner ++ outer) = after inner ++ after outer := by
  induction inner with
  | nil => rfl
  | cons f inner ih =>
      rw [List.cons_append, after, after]
      cases f.side with
      | left => simp [ih]
      | right => exact ih

theorem after_cons_left {f : Frame α} (h : f.side = .left) (frames : List (Frame α)) :
    after (f :: frames) = (f.key, f.entry) :: (f.other.toList ++ after frames) := by
  simp [after, h]

theorem after_cons_right {f : Frame α} (h : f.side = .right) (frames : List (Frame α)) :
    after (f :: frames) = after frames := by
  simp [after, h]

theorem before_cons_left {f : Frame α} (h : f.side = .left) (frames : List (Frame α)) :
    before (f :: frames) = before frames := by
  simp [before, h]

theorem before_cons_right {f : Frame α} (h : f.side = .right) (frames : List (Frame α)) :
    before (f :: frames) = before frames ++ (f.other.toList ++ [(f.key, f.entry)]) := by
  simp [before, h]

variable {a : Links α} {q i : ℕ} {f : Frame α} {frames : List (Frame α)} {t u l r : Tree (ℕ × α)}
  {other : Multiset (ℕ × Slot α)} {c : Color} {k key : UInt32} {e : ℕ × α}
  {entries : List (UInt32 × ℕ × α)}

namespace Shows

/-- The leftmost node of a subtree is on the first entry of it. -/
theorem minimum (h : Shows a q (plug frames u) other) (hu : u ≠ leaf) :
    ∃ i, a.minimum u.number = some i ∧ On (plug frames u) i (u.toList ++ after frames) := by
  have hne := h.number_ne_zero hu
  obtain ⟨inner, c, k, e, x, rfl, hleft, hleftmost⟩ := h.leftmost hu
  refine ⟨e.1, by rw [Links.minimum, if_neg hne, hleftmost], ?_⟩
  have hon : On (plug frames (plug inner (node c leaf k e x))) e.1
      ((k, e) :: (x.toList ++ after (inner ++ frames))) := .entry (plug_append ..)
  rw [after_append] at hon
  simpa [toList_plug, before_eq_nil hleft] using hon

/-- The first entry of the tree. -/
theorem start (h : Shows a q t other) : ∃ i, a.start = some i ∧ On t i t.toList := by
  by_cases hleaf : t = leaf
  · subst hleaf
    exact ⟨0, by rw [Links.start, h.root, number_leaf, Links.minimum, if_pos rfl], .exhausted⟩
  · have hwhole : Shows a q (plug [] t) other := h
    obtain ⟨i, hminimum, hon⟩ := hwhole.minimum hleaf
    refine ⟨i, by rw [Links.start, h.root, hminimum], ?_⟩
    simpa [plug, after] using hon

end Shows

/-! ## One step on -/

/-- Seen from the node that the way up is at: the tree around it, and what comes after it there. -/
structure ClimbAt (t : Tree (ℕ × α)) (rest : List (UInt32 × ℕ × α)) (s : ℕ × ℕ)
    (frames : List (Frame α)) (u : Tree (ℕ × α)) : Prop where
  whole : plug frames u = t
  ne_leaf : u ≠ leaf
  place : s = (u.number, above frames)
  after : after frames = rest

/-- Where the next frame is open to the left, and where there is none, the way up has come to the next
    entry. -/
theorem ClimbAt.on {s : ℕ × ℕ} {rest : List (UInt32 × ℕ × α)} (h : ClimbAt t rest s frames u)
    (hend : ∀ f ∈ frames.head?, f.side = .left) : On t s.2 rest := by
  obtain ⟨hplug, -, rfl, hafter⟩ := h
  rw [← hafter]
  cases frames with
  | nil => exact .exhausted
  | cons f frames =>
      have hside : f.side = .left := hend f rfl
      have hnode : f.fill u = node f.color u f.key f.entry f.other := by
        rw [Frame.fill, hside, join]
      rw [plug, hnode] at hplug
      rw [after_cons_left hside]
      exact .entry hplug

/-- Below a frame that is open to the right the way up goes on. -/
theorem ClimbAt.turn {s : ℕ × ℕ} {rest : List (UInt32 × ℕ × α)} (h : ClimbAt t rest s frames u)
    (hshown : Shows a q t other) :
    (a.isRightOf s.1 s.2 = some false ∧ ∀ f ∈ frames.head?, f.side = .left) ∨
      (a.isRightOf s.1 s.2 = some true ∧ ∃ s' frames' u', a.climb s.2 = some s' ∧
        frames'.length < frames.length ∧ ClimbAt t rest s' frames' u') := by
  obtain ⟨hplug, hu, rfl, hafter⟩ := h
  cases frames with
  | nil => exact Or.inl ⟨rfl, by simp⟩
  | cons f frames =>
      rw [← hplug] at hshown
      have hparent : Shows a q (plug frames (f.fill u)) other := hshown
      have hne : f.entry.1 ≠ 0 := by
        rw [← f.number_fill u]
        exact hparent.number_ne_zero (f.fill_ne_leaf u)
      have hread := hparent.read
      cases hside : f.side with
      | left =>
          -- what hangs on the right side is another node
          have hother := hshown.number_other_ne (Or.inl hu)
          refine Or.inl ⟨?_, by simp [hside]⟩
          simp [Links.isRightOf, Links.child, above, hne, hread, hside, Slot.link, Slot.child, hother]
      | right =>
          have hup : a.parent f.entry.1 = some (above frames) := by
            rw [← f.number_fill u]
            exact hparent.parent (absurd · (f.fill_ne_leaf u))
          refine Or.inr ⟨?_, (f.entry.1, above frames), frames, f.fill u,
            by simp [Links.climb, above, hup], Nat.lt_succ_self _, hplug, f.fill_ne_leaf u, by rw [f.number_fill], ?_⟩
          · simp [Links.isRightOf, Links.child, above, hne, hread, hside, Slot.link, Slot.child]
          · rw [← hafter, after_cons_right hside]

namespace Shows

/-- **The next entry** after that of a node. -/
theorem successor (h : Shows a q (plug frames (node c l k e r)) other) :
    ∃ i, a.successor e.1 = some i ∧
      On (plug frames (node c l k e r)) i (r.toList ++ after frames) := by
  have hnode : Shows a q (plug frames (join .left c l k e r)) other := h
  have hchild : a.child .right e.1 = some r.number := hnode.child_opp
  by_cases hr : r = leaf
  · -- nothing is on the right side, and the way leads up
    subst hr
    have hturns := h.lt_turns
    have hup : a.parent e.1 = some (above frames) := hnode.parent (absurd · join_ne_leaf)
    have hstart : ClimbAt (plug frames (node c l k e leaf)) (after frames) (e.1, above frames) frames
        (node c l k e leaf) := ⟨rfl, node_ne_leaf, rfl, rfl⟩
    obtain ⟨⟨n, p⟩, ⟨frames', u⟩, hloop, hat, hend⟩ := repeatWhile_spec
      (fun s (i : List (Frame α) × Tree (ℕ × α)) => ClimbAt _ (after frames) s i.1 i.2)
      (fun i => i.1.length) (fun i => ∀ f ∈ i.1.head?, f.side = .left)
      (fun s i hs => by
        rcases hs.turn h with ⟨htest, hend⟩ | ⟨htest, s', frames', u, hstep, hlt, hs'⟩
        · exact Or.inl ⟨htest, hend⟩
        · exact Or.inr ⟨htest, s', (frames', u), hstep, hlt, hs'⟩)
      (frames, node c l k e leaf) hstart (by omega : frames.length < a.turns)
    refine ⟨p, ?_, hat.on hend⟩
    simp [Links.successor, hchild, hup, hloop]
  · have hright : Shows a q (plug (⟨.right, c, k, e, l⟩ :: frames) r) other := h
    have hne := hright.number_ne_zero hr
    obtain ⟨i, hminimum, hon⟩ := hright.minimum hr
    refine ⟨i, by simp [Links.successor, hchild, hne, hminimum], ?_⟩
    rw [after_cons_right rfl] at hon
    exact hon

end Shows

/-! ## Calling `next` -/

/-- The entry that a cursor is on is the first of those to come. -/
theorem On.entry_eq (hon : On t i entries) (h : Shows a q t other) :
    a.entry i = some (entries.head?.map plain) := by
  cases hon with
  | exhausted => simp [Links.entry, h.read_nil, Slot.nil, Slot.sentinel]
  | entry hplug =>
      subst hplug
      simp [Links.entry, h.read_node, plain]

/-- **A cursor yields what is still to come.** -/
theorem On.yields (hon : On t i entries) (h : Shows a q t other) :
    a.Yields i (entries.map plain) := by
  -- on the entries to come, since the next place is found from the tree as a whole
  generalize hlength : entries.length = n
  induction n generalizing i entries with
  | zero =>
      have hentry := hon.entry_eq h
      cases hon with
      | exhausted =>
          refine .nothing (by simp [Links.next, hentry]) (by simp [Links.key?, hentry]) ?_
          simp [Links.value?, h.read_nil, Slot.nil, Slot.sentinel]
      | entry _ => exact absurd hlength (Nat.succ_ne_zero _)
  | succ n ih =>
      have hentry := hon.entry_eq h
      cases hon with
      | exhausted => exact absurd hlength.symm (Nat.succ_ne_zero _)
      | entry hplug =>
          subst hplug
          obtain ⟨j, hsuccessor, hon⟩ := h.successor
          refine .entry (j := j) ?_ ?_ ?_ (ih hon (Nat.succ.inj hlength))
          · simp [Links.next, hentry, hsuccessor, plain]
          · simp [Links.key?, hentry, plain]
          · simp [Links.value?, h.read_node]

/-! ## Setting a cursor -/

/-- Seen from the slot that the search is at: what comes before the tree below it has smaller keys, and
    what comes after it does not. The best yet is on the first entry after it. -/
structure NarrowAt (t : Tree (ℕ × α)) (key : UInt32) (s : ℕ × ℕ) (frames : List (Frame α))
    (u : Tree (ℕ × α)) : Prop where
  whole : plug frames u = t
  place : s.2 = u.number
  found : On t s.1 (after frames)
  below : ∀ e ∈ before frames, e.1 < key
  notBelow : ∀ e ∈ after frames, key ≤ e.1
  ordered : Ordered u

/-- The search ends at a leaf. Else it goes on to a smaller tree. -/
theorem NarrowAt.turn {s : ℕ × ℕ} (h : NarrowAt t key s frames u) (hshown : Shows a q t other) :
    (s.2 = 0 ∧ u = leaf) ∨
      (s.2 ≠ 0 ∧ ∃ s' frames' u', a.narrow key s.1 s.2 = some s' ∧ u'.size < u.size ∧
        NarrowAt t key s' frames' u') := by
  obtain ⟨hplug, hplace, hfound, hbelow, hnot, hordered⟩ := h
  cases u with
  | leaf => exact Or.inl ⟨hplace, rfl⟩
  | node c l k e r =>
      obtain ⟨hl, hr, hlk, hkr⟩ := (ordered_node c l k e r).mp hordered
      rw [← hplug] at hshown
      have hread := hshown.read_node
      have hne := hshown.number_ne_zero node_ne_leaf
      rw [hplace]
      refine Or.inr ⟨hne, ?_⟩
      by_cases hle : key ≤ k
      · -- the node is the best yet, and all that is better is on its left side
        refine ⟨(e.1, l.number), ⟨.left, c, k, e, r⟩ :: frames, l, ?_, ?_, hplug, rfl, ?_, ?_, ?_, hl⟩
        · simp [Links.narrow, hread, hle]
        · rw [size]
          omega
        · rw [after_cons_left rfl]
          exact .entry hplug
        · rw [before_cons_left rfl]
          exact hbelow
        · rw [after_cons_left rfl]
          intro entry hentry
          rcases List.mem_cons.mp hentry with rfl | hentry
          · exact hle
          · rcases List.mem_append.mp hentry with hentry | hentry
            · exact UInt32.le_trans hle (UInt32.le_of_lt (hkr entry hentry))
            · exact hnot entry hentry
      · have hlt : k < key := UInt32.not_le.mp hle
        refine ⟨(s.1, r.number), ⟨.right, c, k, e, l⟩ :: frames, r, ?_, ?_, hplug, rfl, ?_, ?_, ?_, hr⟩
        · simp [Links.narrow, hread, hle]
        · rw [size]
          omega
        · rw [after_cons_right rfl]
          exact hfound
        · rw [before_cons_right rfl]
          intro entry hentry
          rcases List.mem_append.mp hentry with hentry | hentry
          · exact hbelow entry hentry
          · rcases List.mem_append.mp hentry with hentry | hentry
            · exact UInt32.lt_trans (hlk entry hentry) hlt
            · obtain rfl := List.mem_singleton.mp hentry
              exact hlt
        · rw [after_cons_right rfl]
          exact hnot

namespace Shows

/-- **The lower bound of a key** is on the first entry with a key not below it. -/
theorem lowerBound (h : Shows a q t other) (hordered : Ordered t) (key : UInt32) :
    ∃ i, a.lowerBound key = some i ∧ On t i (t.toList.filter fun e => key ≤ e.1) := by
  have hwhole : Shows a q (plug [] t) other := h
  have hturns := hwhole.lt_turns
  have hstart : NarrowAt t key (0, a.root) [] t :=
    ⟨rfl, h.root, .exhausted, List.forall_mem_nil _, List.forall_mem_nil _, hordered⟩
  -- the focus shrinks to a leaf; what stands before that is below the key, what stands after is not
  obtain ⟨⟨i, cur⟩, ⟨frames, u⟩, hloop, ⟨hplug, -, hfound, hbelow, hnot, -⟩, hend⟩ := repeatWhile_spec
    (fun s (i : List (Frame α) × Tree (ℕ × α)) => NarrowAt t key s i.1 i.2) (fun i => i.2.size)
    (fun i => i.2 = leaf)
    (fun s i hs => show some (decide (s.2 ≠ 0)) = some false ∧ _ ∨ _ by
      rcases hs.turn h with ⟨htest, hend⟩ | ⟨htest, s', frames, u, hstep, hlt, hs'⟩
      · exact Or.inl ⟨by simp [htest], hend⟩
      · exact Or.inr ⟨by simp [htest], s', (frames, u), hstep, hlt, hs'⟩)
    ([], t) hstart (by omega : t.size < a.turns)
  obtain rfl : u = leaf := hend
  refine ⟨i, by rw [Links.lowerBound, hloop]; rfl, ?_⟩
  have hsplit : (t.toList.filter fun e => key ≤ e.1) = after frames := by
    rw [← hplug, toList_plug, toList_leaf, List.append_nil, List.filter_append,
      List.filter_eq_nil_iff.mpr, List.filter_eq_self.mpr, List.nil_append]
    · exact fun e he => decide_eq_true (hnot e he)
    · intro e he
      simpa using hbelow e he
  rw [hsplit]
  exact hfound

end Shows

/-- Seen from the cursor that the search is at: the entries from there on. Among them are all that have
    keys above the given one, and no key is below it. -/
structure PassAt (t : Tree (ℕ × α)) (key : UInt32) (i : ℕ) (entries : List (UInt32 × ℕ × α)) :
    Prop where
  on : On t i entries
  ascending : Ascending entries
  notBelow : ∀ e ∈ entries, key ≤ e.1
  above : (entries.filter fun e => key < e.1) = t.toList.filter fun e => key < e.1

/-- The search ends at the first entry with another key. -/
theorem PassAt.turn (h : PassAt t key i entries) (hshown : Shows a q t other) :
    (a.isAt key i = some false ∧ entries = t.toList.filter fun e => key < e.1) ∨
      (a.isAt key i = some true ∧ ∃ j rest, (a.next i).map Prod.snd = some j ∧
        rest.length < entries.length ∧ PassAt t key j rest) := by
  obtain ⟨hon, hascending, hnot, habove⟩ := h
  have hkey := (hon.yields hshown).key?
  cases hon with
  | exhausted => exact Or.inl ⟨by simp [Links.isAt, hkey], habove⟩
  | @entry frames c l r k e hplug =>
      obtain ⟨hfirst, hrest⟩ := List.pairwise_cons.mp hascending
      by_cases hk : k = key
      · subst hk
        rw [List.filter_cons_of_neg (by simp)] at habove
        subst hplug
        obtain ⟨j, hsuccessor, hon⟩ := hshown.successor
        refine Or.inr ⟨by simp [Links.isAt, hkey, plain], j, _, ?_, Nat.lt_succ_self _, hon, hrest,
          fun entry hentry => hnot entry (List.mem_cons_of_mem _ hentry), habove⟩
        simp [Links.next, Links.entry, hshown.read_node, hsuccessor]
      · -- the first key is above, and so are the others
        have hlt : key < k := UInt32.lt_of_le_of_ne (hnot _ List.mem_cons_self) (Ne.symm hk)
        refine Or.inl ⟨by simp [Links.isAt, hkey, plain, hk], ?_⟩
        rw [← habove, List.filter_eq_self.mpr]
        intro entry hentry
        rcases List.mem_cons.mp hentry with rfl | hentry
        · exact decide_eq_true hlt
        · exact decide_eq_true (UInt32.lt_trans hlt (hfirst entry hentry))

namespace Shows

/-- **The upper bound of a key** is on the first entry with a key above it. -/
theorem upperBound (h : Shows a q t other) (hordered : Ordered t) (key : UInt32) :
    ∃ i, a.upperBound key = some i ∧ On t i (t.toList.filter fun e => key < e.1) := by
  have hwhole : Shows a q (plug [] t) other := h
  have hturns := hwhole.lt_turns
  obtain ⟨i, hlower, hon⟩ := h.lowerBound hordered key
  have habove : ((t.toList.filter fun e => key ≤ e.1).filter fun e => key < e.1) =
      t.toList.filter fun e => key < e.1 := by
    rw [List.filter_filter]
    refine List.filter_congr fun e _ => ?_
    have hle : key < e.1 → key ≤ e.1 := UInt32.le_of_lt
    by_cases hlt : key < e.1 <;> simp [hlt, hle]
  -- from the lower bound on, the loop passes over what has the key itself
  have hstart : PassAt t key i (t.toList.filter fun e => key ≤ e.1) :=
    ⟨hon, hordered.filter _, fun e he => of_decide_eq_true (List.mem_filter.mp he).2, habove⟩
  have hlength : (t.toList.filter fun e => key ≤ e.1).length < a.turns := by
    have hle := List.length_filter_le (fun e => decide (key ≤ e.1)) t.toList
    rw [length_toList] at hle
    omega
  obtain ⟨j, entries, hloop, ⟨hon', -, -, -⟩, hend⟩ := repeatWhile_spec
    (fun i entries => PassAt t key i entries) List.length
    (fun entries => entries = t.toList.filter fun e => key < e.1)
    (fun i entries hs => hs.turn h) _ hstart hlength
  subst hend
  exact ⟨j, by rw [Links.upperBound, hlower]; exact hloop, hon'⟩

end Shows

/-! ## Cursors of an arena -/

theorem map_plain_filter (passes : UInt32 → Bool) (entries : List (UInt32 × ℕ × α)) :
    (entries.filter fun e => passes e.1).map plain =
      (entries.map plain).filter fun e => passes e.1 := by
  rw [List.filter_map]
  rfl

namespace Keeps

variable {b : Arena α} {s : Tree α}

/-- The way through an arena goes through the entries of the given tree. -/
theorem start (h : Keeps b t s) : ∃ i, b.start = some i ∧ b.Yields i s.toList := by
  obtain ⟨i, hstart, hon⟩ := h.shown.start
  refine ⟨i, hstart, ?_⟩
  rw [← h.entries]
  exact hon.yields h.shown

/-- The minimum that the arena shows is the first entry of the tree. -/
theorem min? (h : Keeps b t s) : b.min? = some s.toList.head? := by
  obtain ⟨i, hstart, hon⟩ := h.shown.start
  rw [Links.min?, hstart, ← h.entries, List.head?_map]
  exact hon.entry_eq h.shown

theorem lowerBound (h : Keeps b t s) (key : UInt32) :
    ∃ i, b.lowerBound key = some i ∧ b.Yields i (s.toList.filter fun e => key ≤ e.1) := by
  obtain ⟨i, hlower, hon⟩ := h.shown.lowerBound (ordered_of_map_plain h.entries h.ordered) key
  refine ⟨i, hlower, ?_⟩
  rw [← h.entries, ← map_plain_filter fun k => key ≤ k]
  exact hon.yields h.shown

theorem upperBound (h : Keeps b t s) (key : UInt32) :
    ∃ i, b.upperBound key = some i ∧ b.Yields i (s.toList.filter fun e => key < e.1) := by
  obtain ⟨i, hupper, hon⟩ := h.shown.upperBound (ordered_of_map_plain h.entries h.ordered) key
  refine ⟨i, hupper, ?_⟩
  rw [← h.entries, ← map_plain_filter fun k => key < k]
  exact hon.yields h.shown

end Keeps

end GossipRing.RedBlack
