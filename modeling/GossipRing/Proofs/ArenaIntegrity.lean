import GossipRing.Proofs.ArenaChanges

/-!
# The integrity of an arena

Toward: however often links are changed and slots are used again, the slots of an arena make up one
tree, a free list and the sentinel, and none is lost. It is enough to know that the slots hold a tree
(`Keeps`); the links are read off it.

* **`Links.follow`** — where a path of sides leads. In the tree it leads to a subtree (`Tree.walk`).
* **`Tree.walk_unique`** — no two paths lead to one slot.
* **`Arena.Intact`** — what the links of an arena have to be like.
* **`Arena.intact_after_run`** — every run of changes on the empty arena has a result, and that is
  intact.
-/

namespace GossipRing.RedBlack

variable {α : Type}

open RedBlack.Tree

/-! ## Paths -/

/-- Go down from a slot by these sides. There is no way on from the sentinel. -/
def Links.follow (a : Links α) (i : ℕ) : List Side → Option ℕ
  | [] => some i
  | side :: path =>
    if i = 0 then none
    else do
      let next ← a.child side i
      follow a next path

namespace Tree

variable {β : Type}

/-- The subtree at the end of a path. -/
def walk : List Side → Tree β → Option (Tree β)
  | [], t => some t
  | _ :: _, leaf => none
  | .left :: path, node _ l _ _ _ => walk path l
  | .right :: path, node _ _ _ _ r => walk path r

variable {side : Side} {c : Color} {near far : Tree β} {k : UInt32} {e : β} {path : List Side}

@[simp] theorem walk_join : (join side c near k e far).walk (side :: path) = near.walk path := by
  cases side <;> rfl

@[simp] theorem walk_join_opp :
    (join side c near k e far).walk (side.opp :: path) = far.walk path := by
  cases side <;> rfl

end Tree

section

variable {a : Links α} {q : ℕ} {frames : List (Frame α)} {t u u' : Tree (ℕ × α)}
  {other : Multiset (ℕ × Slot α)} {path path' : List Side}

/-- A subtree at the end of a path is one below some frames. -/
theorem exists_plug (frames : List (Frame α)) (h : t.walk path = some u) :
    ∃ frames', plug frames' u = plug frames t := by
  induction path generalizing t frames with
  | nil =>
      obtain rfl : t = u := Option.some.inj h
      exact ⟨frames, rfl⟩
  | cons side path ih =>
      by_cases hleaf : t = leaf
      · subst hleaf
        exact nomatch h
      · obtain ⟨c, near, k, e, far, rfl⟩ := exists_join side hleaf
        rw [walk_join] at h
        exact ih (⟨side, c, k, e, far⟩ :: frames) h

/-- The links lead where the tree does. -/
theorem Shows.follow (h : Shows a q (plug frames t) other) (path : List Side) :
    a.follow t.number path = (t.walk path).map number := by
  induction path generalizing t frames with
  | nil => rfl
  | cons side path ih =>
      by_cases hleaf : t = leaf
      · subst hleaf
        rfl
      · obtain ⟨c, near, k, e, far, rfl⟩ := exists_join side hleaf
        have hne := h.number_ne_zero hleaf
        have hchild := h.child
        have hnear : Shows a q (plug (⟨side, c, k, e, far⟩ :: frames) near) other := h
        rw [Links.follow, if_neg hne, number_join, hchild, walk_join, ← ih hnear]
        rfl

/-- A path leads to each slot of a tree. -/
theorem Tree.walk_of_mem_cells {p i : ℕ} (hmem : i ∈ (t.cells p).map Prod.fst) :
    ∃ path u, t.walk path = some u ∧ u ≠ leaf ∧ u.number = i := by
  induction t generalizing p with
  | leaf => simp at hmem
  | node c l k e r ihl ihr =>
      simp only [Tree.cells, Multiset.map_add, Multiset.map_singleton, Multiset.mem_add,
        Multiset.mem_singleton] at hmem
      rcases hmem with rfl | hmem | hmem
      · exact ⟨[], _, rfl, node_ne_leaf, rfl⟩
      · obtain ⟨path, u, hwalk, hu⟩ := ihl hmem
        exact ⟨.left :: path, u, hwalk, hu⟩
      · obtain ⟨path, u, hwalk, hu⟩ := ihr hmem
        exact ⟨.right :: path, u, hwalk, hu⟩

/-- A path leads to slots of the tree only. -/
theorem Tree.mem_cells_of_walk {p : ℕ} (h : t.walk path = some u) (hu : u ≠ leaf) :
    u.number ∈ (t.cells p).map Prod.fst := by
  induction path generalizing t p with
  | nil =>
      obtain rfl : t = u := Option.some.inj h
      exact number_mem_cells hu p
  | cons side path ih =>
      by_cases hleaf : t = leaf
      · subst hleaf
        exact nomatch h
      · obtain ⟨c, near, k, e, far, rfl⟩ := exists_join side hleaf
        rw [walk_join] at h
        rw [cells_join, Multiset.map_add, Multiset.map_add]
        simp only [Multiset.mem_add]
        exact Or.inr (Or.inl (ih h))

/-- Both sides of a node have slots of their own, and it has another. -/
theorem Tree.nodup_join {p : ℕ} {side : Side} {c : Color} {near far : Tree (ℕ × α)} {k : UInt32}
    {e : ℕ × α} (h : (((join side c near k e far).cells p).map Prod.fst).Nodup) :
    e.1 ∉ (near.cells e.1).map Prod.fst ∧ ((near.cells e.1).map Prod.fst).Nodup ∧
      Disjoint ((near.cells e.1).map Prod.fst) ((far.cells e.1).map Prod.fst) := by
  rw [cells_join, Multiset.map_add, Multiset.map_add, Multiset.map_singleton, Multiset.singleton_add,
    Multiset.nodup_cons, Multiset.nodup_add, Multiset.mem_add, not_or] at h
  exact ⟨h.1.1, h.2.1, h.2.2.2⟩

/-- **No two paths lead to one slot.** -/
theorem Tree.walk_unique {p : ℕ} (hnodup : ((t.cells p).map Prod.fst).Nodup)
    (h : t.walk path = some u) (h' : t.walk path' = some u') (hu : u ≠ leaf) (hu' : u' ≠ leaf)
    (heq : u.number = u'.number) : path = path' := by
  induction path generalizing t path' p with
  | nil =>
      obtain rfl : t = u := Option.some.inj h
      cases path' with
      | nil => rfl
      | cons side path' =>
          obtain ⟨c, near, k, e, far, rfl⟩ := exists_join side hu
          rw [walk_join] at h'
          rw [number_join] at heq
          exact absurd (heq ▸ mem_cells_of_walk h' hu') (nodup_join hnodup).1
  | cons side path ih =>
      have hleaf : t ≠ leaf := by
        rintro rfl
        exact nomatch h
      obtain ⟨c, near, k, e, far, rfl⟩ := exists_join side hleaf
      obtain ⟨hroot, hnear, hdisjoint⟩ := nodup_join hnodup
      rw [walk_join] at h
      cases path' with
      | nil =>
          obtain rfl : join side c near k e far = u' := Option.some.inj h'
          rw [number_join] at heq
          exact absurd (heq ▸ mem_cells_of_walk h hu) hroot
      | cons side' path' =>
          rcases Side.eq_or_eq_opp side' side with rfl | rfl
          · rw [walk_join] at h'
            rw [ih hnear h h']
          · -- the two sides have no slot in common
            rw [walk_join_opp] at h'
            exact absurd (heq ▸ mem_cells_of_walk h' hu')
              (Multiset.disjoint_left.mp hdisjoint (mem_cells_of_walk h hu))

end

/-! ## Integrity -/

/-- The slot has an entry. -/
def Links.Live (a : Links α) (i : ℕ) : Prop :=
  ∃ slot v, a.slots[i]? = some slot ∧ slot.value = some v

/-- The links of an arena make up one tree, beside it are only free slots and the sentinel, and that
    is as it was at first. -/
structure Arena.Intact (a : Arena α) : Prop where
  /-- From the root no path leads to a slot without an entry. -/
  reaches : ∀ path i, a.follow a.root path = some i → i = 0 ∨ a.Live i
  /-- One path leads to each entry. -/
  once : ∀ i, a.Live i → ∃! path, a.follow a.root path = some i
  /-- A child names its parent. -/
  back : ∀ i side j, a.Live i → a.child side i = some j → j ≠ 0 → a.parent j = some i
  root : a.parent a.root = some 0
  nodup : a.free.Nodup
  disjoint : ∀ i ∈ a.free, i ≠ 0 ∧ ¬ a.Live i
  /-- Every slot is the sentinel's, or has an entry, or is free. -/
  whole : ∀ i, i < a.slots.size ↔ i = 0 ∨ a.Live i ∨ i ∈ a.free
  sentinel : a.slots[0]? = some .sentinel

/-- The spare slots are the freed ones, each of them wiped. -/
theorem mem_spare {i : ℕ} {slot : Slot α} {free : List ℕ} :
    (i, slot) ∈ spare free ↔ i ∈ free ∧ slot = .sentinel := by
  simp [spare, eq_comm]

theorem map_fst_spare (free : List ℕ) :
    (spare free : Multiset (ℕ × Slot α)).map Prod.fst = (free : Multiset ℕ) := by
  rw [spare, Multiset.map_coe, List.map_map]
  exact congrArg _ (List.map_id free)

namespace Shows

variable {a : Links α} {q i j : ℕ} {t u : Tree (ℕ × α)} {free : List ℕ} {path : List Side}

/-- A path in the tree leads to a subtree that the slots hold. -/
theorem of_walk (h : Shows a q t (spare free)) (hwalk : t.walk path = some u) :
    ∃ frames, Shows a q (plug frames u) (spare free) := by
  obtain ⟨frames, hplug⟩ := exists_plug [] hwalk
  refine ⟨frames, ?_⟩
  rw [hplug]
  exact h

/-- Following a path in the arena leads to the node at its end in the tree. -/
theorem follow_root (h : Shows a q t (spare free)) (path : List Side) :
    a.follow a.root path = (t.walk path).map number := by
  have hwhole : Shows a q (plug [] t) (spare free) := h
  rw [h.root]
  exact hwhole.follow path

/-- The slots of the tree are those that have an entry. -/
theorem live_iff (h : Shows a q t (spare free)) : a.Live i ↔ i ∈ (t.cells 0).map Prod.fst := by
  constructor
  · rintro ⟨slot, v, hread, hvalue⟩
    have hmem := (h.cells.getElem? i slot).mp hread
    rw [Multiset.mem_add, Multiset.mem_add, Multiset.mem_singleton, mem_spare] at hmem
    rcases hmem with (heq | hmem) | ⟨-, rfl⟩
    · obtain ⟨-, rfl⟩ := Prod.mk.inj heq
      exact nomatch hvalue
    · exact Multiset.mem_map_of_mem Prod.fst hmem
    · exact nomatch hvalue
  · intro hmem
    obtain ⟨path, u, hwalk, hu, rfl⟩ := walk_of_mem_cells hmem
    obtain ⟨frames, hframes⟩ := h.of_walk hwalk
    obtain ⟨c, near, k, e, far, rfl⟩ := exists_join .left hu
    rw [number_join]
    exact ⟨_, e.2, hframes.read, Slot.value_link⟩

/-- Every path from the root leads to a live slot or to the sentinel. -/
theorem eq_zero_or_live (h : Shows a q t (spare free)) (hpath : a.follow a.root path = some i) :
    i = 0 ∨ a.Live i := by
  rw [h.follow_root, Option.map_eq_some_iff] at hpath
  obtain ⟨u, hwalk, rfl⟩ := hpath
  by_cases hu : u = leaf
  · subst hu
    exact Or.inl rfl
  · exact Or.inr (h.live_iff.mpr (mem_cells_of_walk hwalk hu))

/-- A live slot is at the end of exactly one path from the root. -/
theorem existsUnique_path (h : Shows a q t (spare free)) (hlive : a.Live i) :
    ∃! path, a.follow a.root path = some i := by
  obtain ⟨path, u, hwalk, hu, rfl⟩ := walk_of_mem_cells (h.live_iff.mp hlive)
  obtain ⟨frames, hframes⟩ := h.of_walk hwalk
  refine ⟨path, by simp [h.follow_root, hwalk], ?_⟩
  intro path' (hpath' : a.follow a.root path' = some u.number)
  rw [h.follow_root, Option.map_eq_some_iff] at hpath'
  obtain ⟨u', hwalk', heq⟩ := hpath'
  have hu' : u' ≠ leaf := by
    rintro rfl
    exact hframes.number_ne_zero hu heq.symm
  have hnodup := h.cells.nodup
  rw [Multiset.map_add, Multiset.map_add, Multiset.nodup_add, Multiset.nodup_add] at hnodup
  exact walk_unique hnodup.1.2.1 hwalk' hwalk hu' hu heq

/-- A child's parent link leads back to the slot that has it as a child. -/
theorem parent_child {side : Side} (h : Shows a q t (spare free)) (hlive : a.Live i)
    (hchild : a.child side i = some j) (hj : j ≠ 0) : a.parent j = some i := by
  obtain ⟨path, u, hwalk, hu, rfl⟩ := walk_of_mem_cells (h.live_iff.mp hlive)
  obtain ⟨frames, hframes⟩ := h.of_walk hwalk
  obtain ⟨c, near, k, e, far, rfl⟩ := exists_join side hu
  rw [number_join, hframes.child] at hchild
  obtain rfl : near.number = j := Option.some.inj hchild
  have hnear : Shows a q (plug (⟨side, c, k, e, far⟩ :: frames) near) (spare free) := hframes
  rw [number_join]
  refine hnear.parent fun hleaf => absurd ?_ hj
  rw [hleaf, number_leaf]

/-- A free slot is neither the sentinel nor live. -/
theorem not_live_of_mem (h : Shows a q t (spare free)) (hi : i ∈ free) : i ≠ 0 ∧ ¬ a.Live i := by
  have hspare : i ∈ ((spare free : Multiset (ℕ × Slot α)).map Prod.fst) := by
    rw [map_fst_spare]
    exact hi
  have hnil : (0 : ℕ) ∈ (({(0, .nil q)} + t.cells 0 : Multiset (ℕ × Slot α)).map Prod.fst) := by simp
  refine ⟨(h.cells.ne hnil hspare).symm, fun hlive => ?_⟩
  refine h.cells.ne ?_ hspare rfl
  rw [Multiset.map_add]
  exact Multiset.mem_add.mpr (Or.inr (h.live_iff.mp hlive))

/-- Every slot is the sentinel, live or free. -/
theorem lt_size_iff (h : Shows a q t (spare free)) :
    i < a.slots.size ↔ i = 0 ∨ a.Live i ∨ i ∈ free := by
  rw [← h.cells.mem_map_iff, h.live_iff, Multiset.map_add, Multiset.map_add, map_fst_spare]
  simp

end Shows

/-- **Slots that hold a tree, and apart from it only what is free, are intact.** -/
theorem Keeps.intact {a : Arena α} {t : Tree (ℕ × α)} {s : Tree α} (h : Keeps a t s) : a.Intact where
  reaches := fun _ _ => h.shown.eq_zero_or_live
  once := fun _ => h.shown.existsUnique_path
  back := fun _ _ _ => h.shown.parent_child
  root := by
    have hwhole : Shows a.toLinks 0 (plug [] t) (spare a.free) := h.shown
    rw [h.shown.root]
    exact hwhole.parent fun _ => rfl
  nodup := by
    have hnodup := h.shown.cells.nodup
    rw [Multiset.map_add, Multiset.nodup_add, map_fst_spare, Multiset.coe_nodup] at hnodup
    exact hnodup.2.1
  disjoint := fun _ => h.shown.not_live_of_mem
  whole := fun _ => h.shown.lt_size_iff
  sentinel := h.shown.read_nil

/-- **An arena stays intact.** A run of changes on the empty arena has a result: no step reads a slot
    that does not exist or rotates a missing child up, and every loop ends in the turns that it is given.
    The answers are those of the tree that rebuilds its paths, and so are the look-ups and the size after
    the run. One path from the root leads to each slot with an entry, and none to another slot but the
    sentinel in the place of a missing child. Every child names its parent, and the root names none. The
    free slots are listed once each, have no entry, and with the sentinel and the slots that have one they
    are all slots. The sentinel is black, with no value, child or parent. -/
theorem Arena.intact_after_run (edits : List (Edit α)) :
    let t := (Edit.run Edit.onTree leaf edits).1
    let answers := (Edit.run Edit.onTree leaf edits).2
    ∃ a, Edit.tryRun Edit.onArena Arena.empty edits = some (a, answers) ∧ a.Intact ∧
      (∀ key, a.get? key = some (t.get? key)) ∧ a.size = t.size := by
  intro t answers
  obtain ⟨a, u, hrun, h⟩ := (keeps_empty (α := α)).run edits
  exact ⟨a, hrun, h.intact, h.get?, h.size⟩

end GossipRing.RedBlack
