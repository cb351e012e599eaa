import GossipRing.RedBlack.Cursor
import Mathlib.Data.List.Sort

/-!
# The order of a red-black tree

Searching, inserting and removing rely on one thing only: the entries stand in strictly ascending
order of their keys. This file shows that every operation keeps that order, and says what each
one does to the entries. Colours play no part in it.

* **`Ordered`** — the entries are ascending. Rebuilding a path never moves an entry past another:
  `balanceLeft`, `shortLeft`, `joinLeft` and their mirror images all have the entries of the plain
  node.
* **`get?_insert`**, **`get?_erase`** — what is found at each key afterwards.
* **`min?_eq_head?`**, **`toList_start`**, **`toList_upperBound`** — the smallest entry, all entries, and
  exactly those with keys above a given one.
-/

namespace GossipRing.RedBlack

variable {α : Type}

/-! ## Order -/

/-- Entries in strictly ascending order of their keys. -/
def Ascending (entries : List (UInt32 × α)) : Prop :=
  entries.Pairwise fun a b => a.1 < b.1

/-- Ascending entries are determined by which entries they are. -/
theorem Ascending.eq_of_mem_iff {xs ys : List (UInt32 × α)} (hx : Ascending xs)
    (hy : Ascending ys) (h : ∀ e, e ∈ xs ↔ e ∈ ys) : xs = ys := by
  have hirrefl : Std.Irrefl fun a b : UInt32 × α => a.1 < b.1 :=
    ⟨fun a => UInt32.lt_irrefl a.1⟩
  have hantisymm : Std.Antisymm fun a b : UInt32 × α => a.1 < b.1 :=
    ⟨fun _ _ hab hba => absurd hab (UInt32.lt_asymm hba)⟩
  exact List.Pairwise.eq_of_mem_iff hx hy h

/-- The first of ascending entries is the one with the least key. -/
theorem Ascending.head?_eq_some_iff {xs : List (UInt32 × α)} (h : Ascending xs)
    (e : UInt32 × α) : xs.head? = some e ↔ e ∈ xs ∧ ∀ e' ∈ xs, e.1 ≤ e'.1 := by
  cases xs with
  | nil => simp
  | cons first rest =>
      obtain ⟨hfirst, _⟩ := List.pairwise_cons.mp h
      rw [List.head?_cons, Option.some.injEq]
      constructor
      · rintro rfl
        refine ⟨List.mem_cons_self, ?_⟩
        intro e' he'
        rcases List.mem_cons.mp he' with rfl | he'
        · exact UInt32.le_refl e'.1
        · exact UInt32.le_of_lt (hfirst e' he')
      · rintro ⟨he, hleast⟩
        rcases List.mem_cons.mp he with rfl | he
        · rfl
        · exact absurd (hfirst e he) (UInt32.not_lt.mpr (hleast first List.mem_cons_self))

namespace Tree

open Color

/-- The entries of the tree are ascending. -/
def Ordered (t : Tree α) : Prop := Ascending t.toList

theorem ordered_leaf : Ordered (leaf : Tree α) := List.Pairwise.nil

/-- Trees with the same entries are both ordered or neither is. -/
theorem Ordered.of_toList_eq {s t : Tree α} (h : s.toList = t.toList) (ht : Ordered t) :
    Ordered s := by
  show Ascending s.toList
  rw [h]
  exact ht

/-- A node is ordered when its sides are and its key lies between them. -/
theorem ordered_node (c : Color) (l : Tree α) (k : UInt32) (v : α) (r : Tree α) :
    Ordered (node c l k v r) ↔
      Ordered l ∧ Ordered r ∧ (∀ e ∈ l.toList, e.1 < k) ∧ (∀ e ∈ r.toList, k < e.1) := by
  rw [Ordered, Ascending, toList_node, List.pairwise_append, List.pairwise_cons]
  constructor
  · rintro ⟨hl, ⟨hkr, hr⟩, hcross⟩
    exact ⟨hl, hr, fun e he => hcross e he (k, v) List.mem_cons_self, hkr⟩
  · rintro ⟨hl, hr, hlk, hkr⟩
    refine ⟨hl, ⟨hkr, hr⟩, ?_⟩
    intro a ha b hb
    rcases List.mem_cons.mp hb with rfl | hb
    · exact hlk a ha
    · exact UInt32.lt_trans (hlk a ha) (hkr b hb)

/-- Two keys that are not below one another are equal. -/
theorem key_eq {k k' : UInt32} (h : ¬ k < k') (h' : ¬ k' < k) : k = k' :=
  UInt32.le_antisymm (UInt32.not_lt.mp h') (UInt32.not_lt.mp h)

/-- What a search finds is an entry of the tree, and every entry of the tree is found. -/
theorem get?_eq_some_iff {t : Tree α} (h : Ordered t) (key : UInt32) (value : α) :
    t.get? key = some value ↔ (key, value) ∈ t.toList := by
  induction t with
  | leaf => simp [get?]
  | node c l k v r ihl ihr =>
      obtain ⟨hl, hr, hlk, hkr⟩ := (ordered_node c l k v r).mp h
      rw [toList_node, List.mem_append, List.mem_cons, Prod.mk.injEq, get?]
      by_cases hlt : key < k
      · -- the key can only be on the left: here and to the right all keys are greater
        rw [if_pos hlt, ihl hl]
        constructor
        · intro hmem
          exact Or.inl hmem
        · rintro (hmem | ⟨rfl, _⟩ | hmem)
          · exact hmem
          · exact absurd hlt (UInt32.lt_irrefl key)
          · exact absurd hlt (UInt32.lt_asymm (hkr _ hmem))
      · rw [if_neg hlt]
        by_cases hgt : k < key
        · -- the key can only be on the right
          rw [if_pos hgt, ihr hr]
          constructor
          · intro hmem
            exact Or.inr (Or.inr hmem)
          · rintro (hmem | ⟨rfl, _⟩ | hmem)
            · exact absurd hgt (UInt32.lt_asymm (hlk _ hmem))
            · exact absurd hgt (UInt32.lt_irrefl key)
            · exact hmem
        · rw [if_neg hgt, Option.some.injEq]
          have hkey : key = k := key_eq hlt hgt
          subst hkey
          constructor
          · intro hv
            exact Or.inr (Or.inl ⟨rfl, hv.symm⟩)
          · rintro (hmem | ⟨_, hv⟩ | hmem)
            · exact absurd (hlk _ hmem) (UInt32.lt_irrefl key)
            · exact hv.symm
            · exact absurd (hkr _ hmem) (UInt32.lt_irrefl key)

/-- The least entry comes first. -/
theorem min?_eq_head? (t : Tree α) : t.min? = t.toList.head? := by
  induction t with
  | leaf => rfl
  | node c l k v r ihl ihr =>
      cases l with
      | leaf => rfl
      | node c' l' k' v' r' =>
          -- the left side is not empty, so the first entry of the whole is its first
          show min? (node c' l' k' v' r') = _
          rw [ihl, toList_node c, List.head?_append_of_ne_nil]
          rw [toList_node]
          exact List.append_ne_nil_of_right_ne_nil _ (List.cons_ne_nil _ _)

/-- A tree without entries is the empty one. -/
theorem eq_leaf_of_toList_eq_nil {t : Tree α} (h : t.toList = []) : t = .leaf := by
  cases t with
  | leaf => rfl
  | node c l k v r =>
      rw [toList_node] at h
      exact absurd h (List.append_ne_nil_of_right_ne_nil _ (List.cons_ne_nil _ _))

/-- Ordered trees that find the same at every key have the same entries. -/
theorem toList_eq_of_get?_eq {s t : Tree α} (hs : Ordered s) (ht : Ordered t)
    (h : ∀ key, s.get? key = t.get? key) : s.toList = t.toList := by
  have hmem : ∀ e, e ∈ s.toList ↔ e ∈ t.toList := by
    rintro ⟨k, v⟩
    rw [← get?_eq_some_iff hs, ← get?_eq_some_iff ht, h]
  exact hs.eq_of_mem_iff ht hmem

/-! ## Rebuilding a path -/

@[simp] theorem toList_paint (c : Color) (t : Tree α) : (paint c t).toList = t.toList := by
  cases t <;> rfl

@[simp] theorem toList_balanceLeft (l : Tree α) (k : UInt32) (v : α) (r : Tree α) :
    (balanceLeft l k v r).toList = l.toList ++ (k, v) :: r.toList := by
  unfold balanceLeft
  split <;> simp

@[simp] theorem toList_balanceRight (l : Tree α) (k : UInt32) (v : α) (r : Tree α) :
    (balanceRight l k v r).toList = l.toList ++ (k, v) :: r.toList := by
  unfold balanceRight
  split <;> simp

@[simp] theorem toList_shortLeft (l : Tree α) (k : UInt32) (v : α) (r : Tree α) :
    (shortLeft l k v r).toList = l.toList ++ (k, v) :: r.toList := by
  unfold shortLeft
  split <;> simp

@[simp] theorem toList_shortRight (l : Tree α) (k : UInt32) (v : α) (r : Tree α) :
    (shortRight l k v r).toList = l.toList ++ (k, v) :: r.toList := by
  unfold shortRight
  split <;> simp

@[simp] theorem toList_joinLeft (before after : Tree α) (k : UInt32) (v : α) (r : Tree α) :
    (joinLeft before after k v r).toList = after.toList ++ (k, v) :: r.toList := by
  unfold joinLeft
  split <;> simp

@[simp] theorem toList_joinRight (l : Tree α) (k : UInt32) (v : α) (before after : Tree α) :
    (joinRight l k v before after).toList = l.toList ++ (k, v) :: after.toList := by
  unfold joinRight
  split <;> simp

/-- The smallest entry of a node and the entries of the rest are the entries of the node. -/
theorem toList_splitMin (l : Tree α) (k : UInt32) (v : α) (r : Tree α) :
    (splitMin l k v r).1 :: (splitMin l k v r).2.toList = l.toList ++ (k, v) :: r.toList := by
  induction l generalizing k v r with
  | leaf => rfl
  | node c l j u m ihl _ =>
      show (splitMin l j u m).1 ::
        (joinLeft (node c l j u m) (splitMin l j u m).2 k v r).toList = _
      rw [toList_joinLeft, ← List.cons_append, ihl, toList_node]

/-! ## Insertion -/

/-- An insertion changes the side the key belongs to, and nothing at a key that is there. -/
theorem toList_insertBelow (key : UInt32) (value : α) (c : Color) (l : Tree α) (k : UInt32) (v : α)
    (r : Tree α) :
    (insertBelow key value (node c l k v r)).toList =
      if key < k then (insertBelow key value l).toList ++ (k, v) :: r.toList
      else if k < key then l.toList ++ (k, v) :: (insertBelow key value r).toList
      else l.toList ++ (k, v) :: r.toList := by
  cases c with
  | red =>
      rw [insertBelow]
      split
      · rfl
      · split <;> rfl
  | black =>
      rw [insertBelow]
      split
      · rw [toList_balanceLeft]
      · split
        · rw [toList_balanceRight]
        · rfl

/-- The entries after an insertion: those there were, and the new one if its key was free. -/
theorem mem_toList_insertBelow (key : UInt32) (value : α) (t : Tree α) (e : UInt32 × α) :
    e ∈ (insertBelow key value t).toList ↔
      e ∈ t.toList ∨ (e = (key, value) ∧ t.get? key = none) := by
  -- by the path the insertion takes: the other side and the node are as they were
  induction t with
  | leaf => simp [insertBelow, get?]
  | node c l k v r ihl ihr =>
      rw [toList_insertBelow, get?, toList_node]
      by_cases hlt : key < k
      · rw [if_pos hlt, if_pos hlt, List.mem_append, List.mem_append, ihl]
        tauto
      · rw [if_neg hlt, if_neg hlt]
        by_cases hgt : k < key
        · rw [if_pos hgt, if_pos hgt, List.mem_append, List.mem_append, List.mem_cons,
            List.mem_cons, ihr]
          tauto
        · rw [if_neg hgt, if_neg hgt]
          simp

/-- Insertion below a node keeps the keys in order: rotations do not change the list of entries. -/
theorem Ordered.insertBelow {t : Tree α} (h : Ordered t) (key : UInt32) (value : α) :
    Ordered (t.insertBelow key value) := by
  induction t with
  | leaf => exact (ordered_node red leaf key value leaf).mpr ⟨h, h, nofun, nofun⟩
  | node c l k v r ihl ihr =>
      obtain ⟨hl, hr, hlk, hkr⟩ := (ordered_node c l k v r).mp h
      have hlist := toList_insertBelow key value c l k v r
      by_cases hlt : key < k
      · rw [if_pos hlt] at hlist
        -- rebalancing does not change the entries, so the order is that of the tree before it
        refine Ordered.of_toList_eq (t := node c (l.insertBelow key value) k v r) hlist ?_
        refine (ordered_node ..).mpr ⟨ihl hl, hr, ?_, hkr⟩
        intro e he
        rcases (mem_toList_insertBelow key value l e).mp he with hold | ⟨rfl, _⟩
        · exact hlk e hold
        · exact hlt
      · rw [if_neg hlt] at hlist
        by_cases hgt : k < key
        · rw [if_pos hgt] at hlist
          refine Ordered.of_toList_eq (t := node c l k v (r.insertBelow key value)) hlist ?_
          refine (ordered_node ..).mpr ⟨hl, ihr hr, hlk, ?_⟩
          intro e he
          rcases (mem_toList_insertBelow key value r e).mp he with hold | ⟨rfl, _⟩
          · exact hkr e hold
          · exact hgt
        · rw [if_neg hgt] at hlist
          exact Ordered.of_toList_eq (t := node c l k v r) hlist h

theorem Ordered.insert {t : Tree α} (h : Ordered t) (key : UInt32) (value : α) :
    Ordered (t.insert key value) :=
  Ordered.of_toList_eq (toList_paint black _) (h.insertBelow key value)

/-- An insertion is found at its key if that was free, and changes nothing elsewhere. -/
theorem get?_insert {t : Tree α} (h : Ordered t) (key : UInt32) (value : α) (key' : UInt32) :
    (t.insert key value).get? key' =
      if key' = key ∧ t.get? key = none then some value else t.get? key' := by
  apply Option.ext
  intro w
  rw [get?_eq_some_iff (h.insert key value), insert, toList_paint, mem_toList_insertBelow,
    ← get?_eq_some_iff h, Prod.mk.injEq]
  by_cases hfree : key' = key ∧ t.get? key = none
  · obtain ⟨rfl, hnone⟩ := hfree
    simp [hnone, eq_comm]
  · rw [if_neg hfree]
    tauto

/-- An insertion that is made only where the key is free finds the same. -/
theorem get?_add {t : Tree α} (h : Ordered t) (key : UInt32) (value : α) (key' : UInt32) :
    (t.insert key value).get? key' = (t.add key value).1.get? key' := by
  rw [add]
  split
  · next hc =>
    rw [get?_insert h, if_neg]
    rintro ⟨-, hfree⟩
    rw [contains, hfree] at hc
    exact nomatch hc
  · rfl

/-! ## Removal -/

/-- A removal changes the side the key belongs to, or takes the node's own entry. -/
theorem toList_eraseBelow (key : UInt32) (c : Color) (l : Tree α) (k : UInt32) (v : α)
    (r : Tree α) :
    (eraseBelow key (node c l k v r)).toList =
      if key < k then (eraseBelow key l).toList ++ (k, v) :: r.toList
      else if k < key then l.toList ++ (k, v) :: (eraseBelow key r).toList
      else l.toList ++ r.toList := by
  by_cases hlt : key < k
  · cases r <;> simp only [eraseBelow, if_pos hlt, toList_joinLeft]
  · by_cases hgt : k < key
    · cases r <;> simp only [eraseBelow, if_neg hlt, if_pos hgt, toList_joinRight]
    · cases r with
      | leaf => simp only [eraseBelow, if_neg hlt, if_neg hgt, toList_leaf, List.append_nil]
      | node c' a j u b =>
          simp only [eraseBelow, if_neg hlt, if_neg hgt, toList_joinRight, Prod.mk.eta,
            toList_splitMin, toList_node]

/-- Entries none of which has the key are all kept. -/
theorem filter_key_ne_self {key : UInt32} {xs : List (UInt32 × α)} (h : ∀ e ∈ xs, e.1 ≠ key) :
    xs.filter (fun e => e.1 ≠ key) = xs :=
  List.filter_eq_self.mpr fun e he => decide_eq_true (h e he)

/-- A removal takes out the entry at the key and keeps the others in their order. -/
theorem toList_eraseBelow_eq_filter {t : Tree α} (h : Ordered t) (key : UInt32) :
    (t.eraseBelow key).toList = t.toList.filter fun e => e.1 ≠ key := by
  induction t with
  | leaf => rfl
  | node c l k v r ihl ihr =>
      obtain ⟨hl, hr, hlk, hkr⟩ := (ordered_node c l k v r).mp h
      rw [toList_eraseBelow, toList_node, List.filter_append]
      by_cases hlt : key < k
      · -- the filter keeps the node and its right side whole, as the removal does
        have hright : ∀ e ∈ (k, v) :: r.toList, e.1 ≠ key := by
          intro e he heq
          rcases List.mem_cons.mp he with rfl | he
          · exact UInt32.lt_irrefl _ (heq ▸ hlt)
          · exact UInt32.lt_asymm hlt (heq ▸ hkr e he)
        rw [if_pos hlt, ihl hl, filter_key_ne_self hright]
      · have hleft : ∀ e ∈ l.toList, e.1 ≠ key := by
          intro e he heq
          exact hlt (heq ▸ hlk e he)
        rw [if_neg hlt, filter_key_ne_self hleft]
        by_cases hgt : k < key
        · have hk : k ≠ key := UInt32.ne_of_lt hgt
          rw [if_pos hgt, ihr hr, List.filter_cons_of_pos (by simpa using hk)]
        · have hk : k = key := key_eq hgt hlt
          have hright : ∀ e ∈ r.toList, e.1 ≠ key := by
            intro e he heq
            exact hgt (heq ▸ hkr e he)
          rw [if_neg hgt, List.filter_cons_of_neg (by simp [hk]), filter_key_ne_self hright]

/-- Erasing a key takes its entry out of the list and leaves all others in place. -/
theorem toList_erase {t : Tree α} (h : Ordered t) (key : UInt32) :
    (t.erase key).toList = t.toList.filter fun e => e.1 ≠ key := by
  rw [erase, toList_paint, toList_eraseBelow_eq_filter h]

theorem Ordered.erase {t : Tree α} (h : Ordered t) (key : UInt32) : Ordered (t.erase key) := by
  show Ascending (t.erase key).toList
  rw [toList_erase h]
  exact h.filter _

/-- A removal leaves nothing at its key and changes nothing elsewhere. -/
theorem get?_erase {t : Tree α} (h : Ordered t) (key key' : UInt32) :
    (t.erase key).get? key' = if key' = key then none else t.get? key' := by
  apply Option.ext
  intro w
  rw [get?_eq_some_iff (h.erase key), toList_erase h, List.mem_filter, ← get?_eq_some_iff h]
  by_cases hkey : key' = key
  · simp [hkey]
  · simp [hkey]

/-- A removal that is made only where there is an entry finds the same. -/
theorem get?_remove {t : Tree α} (h : Ordered t) (key key' : UInt32) :
    (t.erase key).get? key' = (t.remove key).1.get? key' := by
  rw [remove]
  split
  · rfl
  · next hc =>
    rw [get?_erase h]
    split
    · next heq =>
      rw [contains, Option.isSome_iff_ne_none, not_not] at hc
      rw [heq, hc]
    · rfl

end Tree

/-! ## Walking -/

namespace Cursor

/-- A cursor shows the first entry of what is left to walk. -/
theorem value?_eq_head? (c : Cursor α) : c.value? = c.toList.head?.map Prod.snd := by
  cases c <;> rfl

end Cursor

namespace Tree

/-- A walk from the start has the whole tree before it. -/
theorem toList_start (t : Tree α) : t.start.toList = t.toList := by
  rw [start, Cursor.toList_descend]
  exact List.append_nil _

/-- From a seek on come the entries whose keys pass, since all greater keys pass too. -/
theorem toList_seekFrom {t : Tree α} (h : Ordered t) {passes : UInt32 → Bool}
    (up : Cursor α) (hup : ∀ k k', k < k' → passes k = true → passes k' = true) :
    (seekFrom passes t up).toList = t.toList.filter (fun e => passes e.1) ++ up.toList := by
  induction t generalizing up with
  | leaf => rfl
  | node c l k v r ihl ihr =>
      obtain ⟨hl, hr, hlk, hkr⟩ := (ordered_node c l k v r).mp h
      rw [seekFrom, toList_node, List.filter_append]
      cases hk : passes k with
      | true =>
          -- the node passes, and then so do all entries behind it
          have hall : r.toList.filter (fun e => passes e.1) = r.toList :=
            List.filter_eq_self.mpr fun e he => hup k e.1 (hkr e he) hk
          rw [if_pos rfl, ihl hl, List.filter_cons_of_pos (by simpa using hk), hall]
          simp [Cursor.toList]
      | false =>
          -- the node does not pass, so no entry before it can
          have hnone : l.toList.filter (fun e => passes e.1) = [] := by
            refine List.filter_eq_nil_iff.mpr ?_
            intro e he hpass
            rw [hup e.1 k (hlk e he) hpass] at hk
            exact Bool.noConfusion hk
          rw [if_neg Bool.noConfusion, ihr hr, hnone, List.filter_cons_of_neg (by simp [hk])]
          rfl

/-- Above a key stand the entries with greater keys. -/
theorem toList_upperBound {t : Tree α} (h : Ordered t) (key : UInt32) :
    (t.upperBound key).toList = t.toList.filter fun e => key < e.1 := by
  have hup : ∀ k k' : UInt32, k < k' → decide (key < k) = true → decide (key < k') = true := by
    intro k k' hkk hk
    exact decide_eq_true (UInt32.lt_trans (of_decide_eq_true hk) hkk)
  rw [upperBound, seek, toList_seekFrom h _ hup]
  exact List.append_nil _

end Tree

end GossipRing.RedBlack
