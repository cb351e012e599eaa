import GossipRing.Proofs.ArenaIntegrity

/-!
# The balance of an arena

Toward: whatever is added to an arena and removed from it, no entry lies deep. The tree that the slots
hold is sound after every change (`Keeps.sound`), and the colours and keys that the links lead past are
those of the tree.

* **`Links.colors`** — the colours on the way along a path. In the tree they are those of a `Descent`.
* **`Shows.card_live`** — there are as many slots with an entry as the tree has nodes.
* **`Arena.Balanced`** — the rules of a red-black tree, told by the links of an arena.
* **`Arena.balanced_after_run`** — they hold after every run of changes on the empty arena.
-/

namespace GossipRing.RedBlack

variable {α : Type}

open RedBlack.Tree

/-! ## Paths in the tree -/

/-- The colours of the slots on the way down from a slot by these sides. The last slot is not among
    them. -/
def Links.colors (a : Links α) (i : ℕ) : List Side → Option (List Color)
  | [] => some []
  | side :: path =>
    if i = 0 then none
    else do
      let color ← a.color i
      let next ← a.child side i
      let rest ← colors a next path
      some (color :: rest)

section

variable {a : Links α} {q : ℕ} {frames : List (Frame α)} {t u : Tree (ℕ × α)}
  {other : Multiset (ℕ × Slot α)} {path : List Side} {side : Side} {c : Color}
  {near far l r : Tree (ℕ × α)} {k : UInt32} {e : ℕ × α} {passed : List Color}

/-- A descent on one side of a node, seen from that side. -/
theorem Tree.Descent.join (h : Descent near passed u) :
    Descent (join side c near k e far) (c :: passed) u := by
  cases side with
  | left => exact .left h
  | right => exact .right h

/-- The links lead past the colours of the tree. -/
theorem Shows.colors (h : Shows a q (plug frames t) other) (hwalk : t.walk path = some u) :
    ∃ passed, a.colors t.number path = some passed ∧ Descent t passed u ∧
      passed.length = path.length := by
  induction path generalizing t frames with
  | nil =>
      obtain rfl : t = u := Option.some.inj hwalk
      exact ⟨[], rfl, .here, rfl⟩
  | cons side path ih =>
      by_cases hleaf : t = leaf
      · subst hleaf
        exact nomatch hwalk
      · -- the path goes on, so what it stands at is a node, told by the side that it goes to
        obtain ⟨c, near, k, e, far, rfl⟩ := exists_join side hleaf
        rw [walk_join] at hwalk
        have hne := h.number_ne_zero hleaf
        have hcolor := h.color
        have hchild := h.child
        have hnear : Shows a q (plug (⟨side, c, k, e, far⟩ :: frames) near) other := h
        obtain ⟨passed, hpassed, hdescent, hlength⟩ := ih hnear hwalk
        rw [color_join, number_join] at hcolor
        rw [number_join] at hne
        refine ⟨c :: passed, ?_, hdescent.join, congrArg Nat.succ hlength⟩
        rw [number_join, Links.colors, if_neg hne]
        simp [hcolor, hchild, hpassed]

/-- A path leads to entries of the tree. -/
theorem Tree.mem_toList_of_walk (h : t.walk path = some (node c l k e r)) : (k, e) ∈ t.toList := by
  obtain ⟨frames, hplug⟩ := exists_plug [] h
  rw [show t = plug frames (node c l k e r) from hplug.symm, toList_plug]
  simp

/-- A subtree of an ordered tree is ordered. -/
theorem Tree.Ordered.of_plug (h : Ordered (plug frames t)) : Ordered t := by
  rw [Ordered, toList_plug] at h
  exact (List.pairwise_append.mp (List.pairwise_append.mp h).1).2.1

/-- The key is on this side of the other. -/
def Side.Places (side : Side) (key key' : UInt32) : Prop :=
  match side with
  | .left => key' < key
  | .right => key < key'

/-- The keys on one side of a node are all on that side of its own. -/
theorem Tree.Ordered.places (h : Ordered (join side c near k e far)) {entry : UInt32 × ℕ × α}
    (hentry : entry ∈ near.toList) : side.Places k entry.1 := by
  cases side with
  | left => exact ((ordered_node _ _ _ _ _).mp h).2.2.1 entry hentry
  | right => exact ((ordered_node _ _ _ _ _).mp h).2.2.2 entry hentry

end

/-! ## Counting -/

/-- Every cell of a tree has an entry. -/
theorem Tree.value_of_mem_cells {t : Tree (ℕ × α)} {p : ℕ} {cell : ℕ × Slot α}
    (h : cell ∈ t.cells p) : cell.2.value.isSome = true := by
  induction t generalizing p with
  | leaf => simp at h
  | node c l k e r ihl ihr =>
      rw [Tree.cells, Multiset.mem_add, Multiset.mem_add, Multiset.mem_singleton] at h
      rcases h with rfl | h | h
      · rfl
      · exact ihl h
      · exact ihr h

/-- **There are as many slots with an entry as nodes.** The sentinel has none, and neither have the free
    slots. -/
theorem Shows.card_live {a : Links α} {q : ℕ} {t : Tree (ℕ × α)} {free : List ℕ}
    (h : Shows a q t (spare free)) :
    (a.slots.toList.countP fun slot => slot.value.isSome) = t.size := by
  have hnil : ({(0, .nil q)} : Multiset (ℕ × Slot α)).filter (fun cell => cell.2.value.isSome = true) =
      0 := rfl
  have htree : (t.cells 0).filter (fun cell => cell.2.value.isSome = true) = t.cells 0 :=
    Multiset.filter_eq_self.mpr fun _ => value_of_mem_cells
  have hfree : (spare free : Multiset (ℕ × Slot α)).filter (fun cell => cell.2.value.isSome = true) =
      0 := by
    refine Multiset.filter_eq_nil.mpr ?_
    rintro ⟨i, slot⟩ hcell
    rw [(mem_spare.mp hcell).2]
    exact Bool.false_ne_true
  -- of the three kinds of slots only those of the tree hold a value
  calc a.slots.toList.countP (fun slot => slot.value.isSome)
      = (a.slots.toList : Multiset (Slot α)).countP fun slot => slot.value.isSome = true := by
        simp [Multiset.coe_countP]
    _ = (({(0, Slot.nil q)} + t.cells 0 + spare free).filter
          fun cell : ℕ × Slot α => cell.2.value.isSome = true).card := by
        rw [← h.cells.map_snd, Multiset.countP_map]
    _ = t.size := by
        rw [Multiset.filter_add, Multiset.filter_add, hnil, htree, hfree, zero_add, add_zero,
          card_cells]

/-! ## The rules -/

/-- The links of an arena keep the rules of a red-black tree. -/
structure Arena.Balanced (a : Arena α) : Prop where
  /-- Below a slot, the keys on its left side are smaller and those on its right side are greater. -/
  ordered : ∀ path side path' i j slot slot', a.follow a.root path = some i →
    a.follow i (side :: path') = some j → j ≠ 0 → a.slots[i]? = some slot →
    a.slots[j]? = some slot' → side.Places slot.key slot'.key
  root : a.color a.root = some .black
  red : ∀ path i side j, a.follow a.root path = some i → a.color i = some .red →
    a.child side i = some j → a.color j = some .black
  /-- As many black slots on every way from the root to the sentinel. -/
  black : ∃ height, ∀ path, a.follow a.root path = some 0 →
    (a.colors a.root path).map (List.count .black) = some height
  /-- The slots that paths lead to are those with an entry. -/
  reached : ∀ i, a.Live i ↔ i ≠ 0 ∧ ∃ path, a.follow a.root path = some i
  nodes : (a.slots.toList.countP fun slot => slot.value.isSome) = a.size
  depth : ∀ path i, a.follow a.root path = some i → i ≠ 0 →
    path.length + 1 ≤ 2 * Nat.log 2 (a.size + 1)

namespace Keeps

variable {a : Arena α} {t : Tree (ℕ × α)} {s : Tree α}

/-- A path leads to a subtree, and to the sentinel where there is a leaf. -/
theorem exists_walk (h : Keeps a t s) {path : List Side} {i : ℕ}
    (hpath : a.follow a.root path = some i) :
    ∃ frames u, plug frames u = t ∧ t.walk path = some u ∧ u.number = i ∧ (u = leaf ↔ i = 0) := by
  rw [h.shown.follow_root, Option.map_eq_some_iff] at hpath
  obtain ⟨u, hwalk, rfl⟩ := hpath
  obtain ⟨frames, hplug⟩ := exists_plug [] hwalk
  refine ⟨frames, u, hplug, hwalk, rfl, ?_⟩
  have hshown := h.shown
  rw [show t = plug frames u from hplug.symm] at hshown
  constructor
  · rintro rfl
    rfl
  · intro hzero
    by_contra hu
    exact hshown.number_ne_zero hu hzero

/-- Keys stand on the side of a slot that the path to them takes there. -/
theorem places (h : Keeps a t s) {path path' : List Side} {side : Side} {i j : ℕ}
    {slot slot' : Slot α} (hi : a.follow a.root path = some i)
    (hj : a.follow i (side :: path') = some j) (hne : j ≠ 0) (hslot : a.slots[i]? = some slot)
    (hslot' : a.slots[j]? = some slot') : side.Places slot.key slot'.key := by
  obtain ⟨frames, u, hplug, -, rfl, hzero⟩ := h.exists_walk hi
  have hordered := ordered_of_map_plain h.entries h.ordered
  have hshown := h.shown
  rw [← hplug] at hordered hshown
  have hu : u ≠ leaf := by
    rintro rfl
    exact nomatch hj
  obtain ⟨c, near, k, e, far, rfl⟩ := exists_join side hu
  rw [hshown.follow, walk_join, Option.map_eq_some_iff] at hj
  obtain ⟨u', hwalk', rfl⟩ := hj
  have hu' : u' ≠ leaf := by
    rintro rfl
    exact hne rfl
  -- the lower slot is that of a node on this side of the upper one
  obtain ⟨frames', hplug'⟩ := exists_plug (⟨side, c, k, e, far⟩ :: frames) hwalk'
  have hbelow : Shows a.toLinks 0 (plug frames' u') (spare a.free) := by
    rw [hplug']
    exact hshown
  obtain ⟨c', l, k', e', r, rfl⟩ := exists_join .left hu'
  rw [number_join, hshown.read, Option.some.injEq] at hslot
  rw [number_join, hbelow.read, Option.some.injEq] at hslot'
  rw [← hslot, ← hslot', Slot.key_link, Slot.key_link]
  exact hordered.of_plug.places (mem_toList_of_walk hwalk')

/-- A red slot has no red child. -/
theorem not_red_below (h : Keeps a t s) {path : List Side} {side : Side} {i j : ℕ}
    (hi : a.follow a.root path = some i) (hred : a.color i = some .red)
    (hchild : a.child side i = some j) : a.color j = some .black := by
  obtain ⟨frames, u, hplug, hwalk, rfl, -⟩ := h.exists_walk hi
  have hwhole : Shows a.toLinks 0 (plug [] t) (spare a.free) := h.shown
  obtain ⟨passed, -, hdescent, -⟩ := hwhole.colors hwalk
  obtain ⟨n, hn⟩ := h.sound.balanced
  obtain ⟨m, hm⟩ := hn.of_descent hdescent
  have hshown := h.shown
  rw [← hplug] at hshown
  rw [hshown.color, Option.some.injEq] at hred
  obtain ⟨c, near, k, e, far, rfl⟩ := exists_join side (ne_leaf_of_red hred)
  rw [color_join] at hred
  subst hred
  rw [number_join, hshown.child, Option.some.injEq] at hchild
  subst hchild
  have hnear : Shows a.toLinks 0 (plug (⟨side, .red, k, e, far⟩ :: frames) near) (spare a.free) :=
    hshown
  rw [hnear.color, hm.of_join_red.2.2.1]

theorem size_eq (h : Keeps a t s) : a.size = t.size := by
  rw [h.size, ← length_toList, ← length_toList, ← h.entries, List.length_map]

/-- The slots hold a tree that keeps the rules. -/
theorem balanced (h : Keeps a t s) : a.Balanced where
  ordered := fun _ _ _ _ _ _ _ => h.places
  root := by
    have hwhole : Shows a.toLinks 0 (plug [] t) (spare a.free) := h.shown
    rw [h.shown.root, hwhole.color]
    exact congrArg some h.sound.root
  red := fun _ _ _ _ => h.not_red_below
  black := by
    obtain ⟨n, hn⟩ := h.sound.balanced
    have hwhole : Shows a.toLinks 0 (plug [] t) (spare a.free) := h.shown
    refine ⟨n, fun path hpath => ?_⟩
    obtain ⟨-, u, -, hwalk, -, hzero⟩ := h.exists_walk hpath
    obtain ⟨passed, hpassed, hdescent, -⟩ := hwhole.colors hwalk
    obtain rfl : u = leaf := hzero.mpr rfl
    rw [h.shown.root, hpassed, Option.map_some, hn.count_black hdescent]
  reached := fun i => by
    constructor
    · intro hlive
      refine ⟨?_, (h.intact.once i hlive).exists⟩
      rintro rfl
      obtain ⟨slot, v, hslot, hvalue⟩ := hlive
      rw [h.shown.read_nil, Option.some.injEq] at hslot
      subst hslot
      exact nomatch hvalue
    · rintro ⟨hne, path, hpath⟩
      exact (h.intact.reaches path i hpath).resolve_left hne
  nodes := by
    rw [h.shown.card_live, h.size_eq]
  depth := fun path i hpath hne => by
    have hwhole : Shows a.toLinks 0 (plug [] t) (spare a.free) := h.shown
    obtain ⟨-, u, -, hwalk, -, hzero⟩ := h.exists_walk hpath
    obtain ⟨passed, -, hdescent, hlength⟩ := hwhole.colors hwalk
    obtain ⟨c, l, k, e, r, rfl⟩ := exists_join .left fun hu => hne (hzero.mp hu)
    rw [← hlength, h.size_eq]
    exact h.sound.depth_le hdescent

end Keeps

/-- **An arena stays balanced.** A run of changes on the empty arena has a result. In it the keys on the
    left side of a slot are smaller than its own, and those on its right side are greater; the root is
    black, and no red slot has a red child; every way from the root down to the sentinel passes the same
    number of black slots. The slots with an entry are those that paths lead to, and there are as many of
    them as the size says. A way from the root to one of them passes at most `2 * log2 (size + 1)` slots,
    itself counted and the logarithm rounded down. -/
theorem Arena.balanced_after_run (edits : List (Edit α)) :
    ∃ a answers, Edit.tryRun Edit.onArena Arena.empty edits = some (a, answers) ∧ a.Balanced := by
  obtain ⟨a, t, hrun, h⟩ := (keeps_empty (α := α)).run edits
  exact ⟨a, _, hrun, h.balanced⟩

/-- Three entries in ascending order: the second one has come up. -/
example :
    ((Edit.tryRun Edit.onArena Arena.empty [.insert 10 'a', .insert 20 'b', .insert 30 'c']).bind
      fun s => s.1.colors s.1.root [.left, .left]) = some [.black, .red] := by
  decide +kernel

end GossipRing.RedBlack
