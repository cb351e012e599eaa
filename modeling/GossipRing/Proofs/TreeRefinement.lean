import GossipRing.Proofs.OrderedTree

/-!
# A red-black tree refines an ordered map

Toward: whatever is added to a tree and removed from it, in whatever order, the tree answers like
an ordered map. The map it is held against is `Std.TreeMap`, which is balanced by other means.

* **`Edit`** — one change, on a tree or on a map, with the answer whether anything changed.
* **`Refines`** — the tree is ordered and finds what the map finds. One edit keeps a tree and a
  map together (`Refines.step`), and so does every run of edits (`Refines.run`).
* **`Refines.toList_eq`** — they have the same entries in the same order.
-/

namespace GossipRing.RedBlack

variable {α : Type}

/-! ## Runs of changes -/

/-- A change of an ordered map. -/
inductive Edit (α : Type) where
  | insert (key : UInt32) (value : α)
  | remove (key : UInt32)

namespace Edit

/-- The change on a tree, and whether anything changed. -/
def onTree (t : Tree α) : Edit α → Tree α × Bool
  | insert key value => t.add key value
  | remove key => t.remove key

/-- The change on a map, and whether anything changed. -/
def onMap (m : Std.TreeMap UInt32 α) : Edit α → Std.TreeMap UInt32 α × Bool
  | insert key value => (m.insertIfNew key value, !m.contains key)
  | remove key => (m.erase key, m.contains key)

/-- Changes in order by some step, and the answer to each. -/
def run {σ : Type} (step : σ → Edit α → σ × Bool) (s : σ) : List (Edit α) → σ × List Bool
  | [] => (s, [])
  | edit :: rest =>
    let (s, answer) := step s edit
    let (s, answers) := run step s rest
    (s, answer :: answers)

end Edit

namespace Tree

/-- The tree is ordered and finds what the map finds. -/
structure Refines (t : Tree α) (m : Std.TreeMap UInt32 α) : Prop where
  ordered : Ordered t
  finds : ∀ key, t.get? key = m[key]?

theorem refines_empty : Refines (leaf : Tree α) ∅ where
  ordered := ordered_leaf
  finds := fun key => by
    rw [Std.TreeMap.getElem?_emptyc]
    rfl

namespace Refines

variable {t : Tree α} {m : Std.TreeMap UInt32 α}

theorem contains_eq (h : Refines t m) (key : UInt32) : t.contains key = m.contains key := by
  rw [contains, h.finds, Std.TreeMap.contains_eq_isSome_getElem?]

/-- One change gives the same answer on both sides, and keeps them together. -/
theorem step (h : Refines t m) (edit : Edit α) :
    (edit.onTree t).2 = (edit.onMap m).2 ∧ Refines (edit.onTree t).1 (edit.onMap m).1 := by
  cases edit with
  | insert key value =>
      show (t.add key value).2 = !m.contains key ∧
        Refines (t.add key value).1 (m.insertIfNew key value)
      rw [add, ← h.contains_eq]
      by_cases hc : t.contains key = true
      · -- the key is taken: the tree is as it was, and `insertIfNew` keeps the old value
        rw [if_pos hc, hc]
        refine ⟨rfl, h.ordered, ?_⟩
        intro key'
        have hmem : key ∈ m := by rw [Std.TreeMap.mem_iff_contains, ← h.contains_eq, hc]
        rw [Std.TreeMap.getElem?_insertIfNew, if_neg (fun hn => hn.2 hmem)]
        exact h.finds key'
      · rw [if_neg hc, Bool.eq_false_of_not_eq_true hc]
        refine ⟨rfl, h.ordered.insert key value, ?_⟩
        intro key'
        have hfree : t.get? key = none := by simpa [contains] using hc
        have hmem : key ∉ m := by rw [Std.TreeMap.mem_iff_contains, ← h.contains_eq]; exact hc
        rw [get?_insert h.ordered, Std.TreeMap.getElem?_insertIfNew, h.finds key']
        simp only [Std.compare_eq_iff_eq, eq_comm (a := key), hfree, hmem, not_false_eq_true]
  | remove key =>
      show (t.remove key).2 = m.contains key ∧ Refines (t.remove key).1 (m.erase key)
      rw [remove, ← h.contains_eq]
      by_cases hc : t.contains key = true
      · rw [if_pos hc, hc]
        refine ⟨rfl, h.ordered.erase key, ?_⟩
        intro key'
        rw [get?_erase h.ordered, Std.TreeMap.getElem?_erase, h.finds key']
        simp only [Std.compare_eq_iff_eq, eq_comm (a := key)]
      · rw [if_neg hc, Bool.eq_false_of_not_eq_true hc]
        refine ⟨rfl, h.ordered, ?_⟩
        intro key'
        -- erasing a key that is not there changes nothing on the map either
        have hfree : t.get? key = none := by simpa [contains] using hc
        rw [Std.TreeMap.getElem?_erase, h.finds key']
        split
        · next heq =>
          rw [← Std.compare_eq_iff_eq.mp heq, ← h.finds, hfree]
        · rfl

/-- A run gives the same answers on both sides, and keeps them together. -/
theorem run (h : Refines t m) (edits : List (Edit α)) :
    (Edit.run Edit.onTree t edits).2 = (Edit.run Edit.onMap m edits).2 ∧
      Refines (Edit.run Edit.onTree t edits).1 (Edit.run Edit.onMap m edits).1 := by
  induction edits generalizing t m with
  | nil => exact ⟨rfl, h⟩
  | cons edit rest ih =>
      obtain ⟨hanswer, hnext⟩ := h.step edit
      obtain ⟨hanswers, hlast⟩ := ih hnext
      exact ⟨congrArg₂ List.cons hanswer hanswers, hlast⟩

/-- The entries of the tree are the entries of the map, in the same order. -/
theorem toList_eq (h : Refines t m) : t.toList = m.toList := by
  have hm : Ascending m.toList :=
    Std.TreeMap.ordered_keys_toList.imp fun hlt => Std.compare_eq_lt.mp hlt
  refine Ascending.eq_of_mem_iff h.ordered hm ?_
  rintro ⟨k, v⟩
  rw [← get?_eq_some_iff h.ordered, h.finds, Std.TreeMap.mem_toList_iff_getElem?_eq_some]

end Refines

end Tree

end GossipRing.RedBlack
