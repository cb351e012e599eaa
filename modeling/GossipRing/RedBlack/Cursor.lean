import GossipRing.RedBlack.Tree

/-!
# Walking a tree

A cursor stands on an entry of a tree or behind the last one. It holds what is still to come: the
entry it stands on, the tree to the right of that entry, and the same for each ancestor that
follows. Stepping on costs no more than one path.

* **`Cursor.toList`** — the entries still to come.
* **`Tree.seek`** — the first entry whose key passes a test that all greater keys pass too.
-/

namespace GossipRing.RedBlack

/-- A place in a tree. -/
inductive Cursor (α : Type) where
  | exhausted
  | on (key : UInt32) (value : α) (right : Tree α) (up : Cursor α)
  deriving Inhabited, Repr

namespace Cursor

variable {α : Type}

/-- The entries still to come. -/
def toList : Cursor α → List (UInt32 × α)
  | exhausted => []
  | on k v right up => (k, v) :: (right.toList ++ toList up)

/-- The key of the entry the cursor stands on. -/
def key? : Cursor α → Option UInt32
  | exhausted => none
  | on k _ _ _ => some k

/-- The value of the entry the cursor stands on. -/
def value? : Cursor α → Option α
  | exhausted => none
  | on _ v _ _ => some v

/-- On the first entry of a tree, with `up` to follow. -/
def descend : Tree α → Cursor α → Cursor α
  | .leaf, up => up
  | .node _ l k v r, up => descend l (on k v r up)

/-- The entry the cursor stands on, and the cursor on the one after it. -/
def next : Cursor α → Option (UInt32 × α) × Cursor α
  | exhausted => (none, exhausted)
  | on k v right up => (some (k, v), descend right up)

theorem toList_descend (t : Tree α) (up : Cursor α) :
    (descend t up).toList = t.toList ++ up.toList := by
  induction t generalizing up with
  | leaf => rfl
  | node c l k v r ihl ihr => simp [descend, ihl, toList]

/-- Stepping on takes the first of the entries to come. -/
theorem toList_next (c : Cursor α) : c.next.2.toList = c.toList.tail := by
  cases c with
  | exhausted => rfl
  | on k v right up => simp [next, toList, toList_descend]

theorem next_fst (c : Cursor α) : c.next.1 = c.toList.head? := by
  cases c <;> rfl

end Cursor

namespace Tree

variable {α : Type}

/-- On the first entry whose key passes, with `up` to follow. -/
def seekFrom (passes : UInt32 → Bool) : Tree α → Cursor α → Cursor α
  | leaf, up => up
  | node _ l k v r, up =>
    if passes k then seekFrom passes l (.on k v r up) else seekFrom passes r up

/-- On the first entry whose key passes. -/
def seek (passes : UInt32 → Bool) (t : Tree α) : Cursor α := seekFrom passes t .exhausted

/-- On the first entry with a key above `key`. -/
def upperBound (key : UInt32) (t : Tree α) : Cursor α := t.seek fun k => key < k

/-- On the first entry. -/
def start (t : Tree α) : Cursor α := Cursor.descend t .exhausted

end Tree

end GossipRing.RedBlack
