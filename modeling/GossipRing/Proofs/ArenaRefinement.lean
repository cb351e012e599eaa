import GossipRing.Proofs.ArenaCursors

/-!
# An arena refines an ordered map

Toward: whatever is added to an arena and removed from it, in whatever order, it answers like an
ordered map, and its cursors go through the map's entries. The arena is held against `Std.TreeMap` by
way of the tree that is rebuilt: the slots keep the entries of that tree (`Keeps`), and it finds what
the map finds (`Refines`).

* **`Arena.exists_run`** — a run of changes on the empty arena has a result, with the answers of the map.
* **`Arena.run_eq_treeMap`** — all answers after the run.
* **`Links.Traverses`**, **`Arena.bounds_traverse`** — the two bounds of a key.
-/

namespace GossipRing.RedBlack

variable {α : Type}

open RedBlack.Tree

/-- **A run of changes** on the empty arena has a result. It gives the answers that the map gives, and
    keeps the entries of the map. -/
theorem Arena.exists_run (edits : List (Edit α)) :
    ∃ a t s, Edit.tryRun Edit.onArena Arena.empty edits =
        some (a, (Edit.run Edit.onMap ∅ edits).2) ∧
      Keeps a t s ∧ Refines s (Edit.run Edit.onMap ∅ edits).1 := by
  obtain ⟨a, t, hrun, hkeeps⟩ := (keeps_empty (α := α)).run edits
  obtain ⟨hanswers, hrefines⟩ := (refines_empty (α := α)).run edits
  exact ⟨a, t, _, hanswers ▸ hrun, hkeeps, hrefines⟩

/-- **The arena refines an ordered map.** A run of changes on the empty arena has a result, and answers
    each change as the same run on `Std.TreeMap` does: an insertion is refused exactly when its key is
    there, and a removal when it is not. A refused change leaves the arena as it is. After the run, and
    so after each part of it that is a run itself, every look-up, the least entry, the size and whether
    it is empty are those of the map. A cursor on the first entry yields the entries of the map, all of
    them and in strictly ascending order. -/
theorem Arena.run_eq_treeMap (edits : List (Edit α)) :
    let m := (Edit.run Edit.onMap ∅ edits).1
    let answers := (Edit.run Edit.onMap ∅ edits).2
    ∃ a, Edit.tryRun Edit.onArena Arena.empty edits = some (a, answers) ∧
      (∀ key value, m.contains key = true → a.insert key value = some (a, false)) ∧
      (∀ key, m.contains key = false → a.remove key = some (a, false)) ∧
      (∀ key, a.get? key = some m[key]?) ∧
      a.min? = some m.toList.head? ∧ m.toList.head?.map Prod.fst = m.minKey? ∧
      a.size = m.size ∧ a.isEmpty = m.isEmpty ∧
      (∃ i, a.start = some i ∧ a.Yields i m.toList) ∧ Ascending m.toList := by
  intro m answers
  obtain ⟨a, t, s, hrun, hkeeps, hrefines⟩ := Arena.exists_run edits
  have hlist : s.toList = m.toList := hrefines.toList_eq
  have hsize : a.size = m.size := by
    rw [hkeeps.size, ← length_toList, hlist, Std.TreeMap.length_toList]
  refine ⟨a, hrun, ?_, ?_, ?_, ?_, ?_, hsize, ?_, ?_, ?_⟩
  · intro key value hc
    exact hkeeps.insert_refused ((hrefines.contains_eq key).trans hc) value
  · intro key hc
    exact hkeeps.remove_refused ((hrefines.contains_eq key).trans hc)
  · intro key
    rw [hkeeps.get?, hrefines.finds]
  · rw [hkeeps.min?, hlist]
  · rw [Std.TreeMap.minKey?_eq_head?_keys, ← Std.TreeMap.map_fst_toList_eq_keys, List.head?_map]
  · rw [Arena.isEmpty, hsize, Std.TreeMap.isEmpty_eq_size_eq_zero]
  · rw [← hlist]
    exact hkeeps.start
  · exact hlist ▸ hrefines.ordered

/-! ## Going through from a key on -/

/-- From this cursor on come the entries of the map whose keys pass: each of them once, in strictly
    ascending order of the keys, and after the last one there is never another. -/
def Links.Traverses (a : Links α) (i : ℕ) (m : Std.TreeMap UInt32 α) (passes : UInt32 → Prop) :
    Prop :=
  ∃ entries, a.Yields i entries ∧ Ascending entries ∧
    (∀ k v, (k, v) ∈ entries ↔ m[k]? = some v ∧ passes k) ∧
    ∀ n, entries.length ≤ n → ∃ j, a.advance n i = some j ∧ a.next j = some (none, j)

/-- A cursor that yields the entries of the map whose keys pass. -/
theorem Tree.Refines.traverses {s : Tree α} {m : Std.TreeMap UInt32 α} {a : Links α} {i : ℕ}
    {passes : UInt32 → Prop} [DecidablePred passes] (h : Refines s m)
    (hyields : a.Yields i (s.toList.filter fun e => passes e.1)) : a.Traverses i m passes := by
  refine ⟨_, hyields, h.ordered.filter _, ?_, ?_⟩
  · intro k v
    rw [List.mem_filter, ← get?_eq_some_iff h.ordered, h.finds, decide_eq_true_eq]
  · intro n hn
    obtain ⟨j, hadvance, hrest⟩ := hyields.advance n
    rw [List.drop_eq_nil_of_le hn] at hrest
    exact ⟨j, hadvance, hrest.next_nil⟩

/-- **A cursor set at a key goes through all entries from there on.** After a run of changes on the
    empty arena the lower bound of a key goes through the entries with keys not below it, and the upper
    bound through those with keys above it, for every key, least and greatest ones and keys that are
    not there among them. The entries are those of the ordered map that has seen the same run. -/
theorem Arena.bounds_traverse (edits : List (Edit α)) (key : UInt32) :
    let m := (Edit.run Edit.onMap ∅ edits).1
    let answers := (Edit.run Edit.onMap ∅ edits).2
    ∃ a i j, Edit.tryRun Edit.onArena Arena.empty edits = some (a, answers) ∧
      a.lowerBound key = some i ∧ a.Traverses i m (fun k => key ≤ k) ∧
      a.upperBound key = some j ∧ a.Traverses j m (fun k => key < k) := by
  intro m answers
  obtain ⟨a, t, s, hrun, hkeeps, hrefines⟩ := Arena.exists_run edits
  obtain ⟨i, hlower, hi⟩ := hkeeps.lowerBound key
  obtain ⟨j, hupper, hj⟩ := hkeeps.upperBound key
  exact ⟨a, i, j, hrun, hlower, hrefines.traverses hi, hupper, hrefines.traverses hj⟩

/-- The least key and the greatest one are keys like any other. -/
example :
    (do
      let (a, _) ← Edit.tryRun Edit.onArena Arena.empty [.insert 4294967295 'z', .insert 0 'a']
      let first ← a.next (← a.lowerBound 0)
      let last ← a.next (← a.upperBound 0)
      let none ← a.next (← a.upperBound 4294967295)
      some (first.1, last.1, none.1)) = some (some (0, 'a'), some (4294967295, 'z'), none) := by
  decide +kernel

end GossipRing.RedBlack
