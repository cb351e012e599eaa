/-!
# Red-black trees

An ordered map from 32-bit keys to values, as a search tree whose nodes are red or black. What the
slots of an arena hold is such a tree. Its own operations rebuild one path each, and their entries are
those of the operations on an arena.

* **`Tree.toList`** — the entries in ascending order, the view in which the operations are read.
* **`Tree.insert`**, **`Tree.erase`** — each rebuilds one path. On the way back up,
  `balanceLeft` and `balanceRight` mend a red child below a red node, `shortLeft` and `shortRight`
  a side that lacks a black node.
* **`Tree.add`**, **`Tree.remove`** — the same, with the answer whether anything changed.
-/

namespace GossipRing.RedBlack

inductive Color where
  | red
  | black
  deriving DecidableEq, Inhabited, Repr

/-- A search tree over 32-bit keys with a colour at every node. -/
inductive Tree (α : Type) where
  | leaf
  | node (color : Color) (left : Tree α) (key : UInt32) (value : α) (right : Tree α)
  deriving DecidableEq, Inhabited, Repr

namespace Tree

open Color

variable {α : Type}

/-- The entries in ascending order of the keys. -/
def toList : Tree α → List (UInt32 × α)
  | leaf => []
  | node _ l k v r => toList l ++ (k, v) :: toList r

/-- The number of entries. -/
def size : Tree α → Nat
  | leaf => 0
  | node _ l _ _ r => size l + 1 + size r

@[simp] theorem toList_leaf : toList (leaf : Tree α) = [] := rfl

@[simp] theorem toList_node (c : Color) (l : Tree α) (k : UInt32) (v : α) (r : Tree α) :
    toList (node c l k v r) = toList l ++ (k, v) :: toList r := rfl

/-- The size counts the entries of the view. -/
theorem length_toList (t : Tree α) : t.toList.length = t.size := by
  induction t with
  | leaf => rfl
  | node c l k v r ihl ihr => simp [size, ihl, ihr]; omega

/-- The tree is a black node. -/
def isBlackNode : Tree α → Bool
  | node black _ _ _ _ => true
  | _ => false

/-- The value at a key. -/
def get? (key : UInt32) : Tree α → Option α
  | leaf => none
  | node _ l k v r => if key < k then get? key l else if k < key then get? key r else some v

def contains (key : UInt32) (t : Tree α) : Bool := (t.get? key).isSome

/-- The entry with the smallest key. -/
def min? : Tree α → Option (UInt32 × α)
  | leaf => none
  | node _ leaf k v _ => some (k, v)
  | node _ l _ _ _ => min? l

def paint (c : Color) : Tree α → Tree α
  | leaf => leaf
  | node _ l k v r => node c l k v r

/-! ## Insertion -/

/-- A black node whose left side may be red with a red child. -/
def balanceLeft : Tree α → UInt32 → α → Tree α → Tree α
  | node red (node red a j u b) k v c, l, w, d => node red (node black a j u b) k v (node black c l w d)
  | node red a j u (node red b k v c), l, w, d => node red (node black a j u b) k v (node black c l w d)
  | a, k, v, b => node black a k v b

/-- A black node whose right side may be red with a red child. -/
def balanceRight : Tree α → UInt32 → α → Tree α → Tree α
  | a, j, u, node red b k v (node red c l w d) => node red (node black a j u b) k v (node black c l w d)
  | a, j, u, node red (node red b k v c) l w d => node red (node black a j u b) k v (node black c l w d)
  | a, k, v, b => node black a k v b

/-- Insertion below the root, which may leave a red root with a red child. -/
def insertBelow (key : UInt32) (value : α) : Tree α → Tree α
  | leaf => node red leaf key value leaf
  | node red l k v r =>
    if key < k then node red (insertBelow key value l) k v r
    else if k < key then node red l k v (insertBelow key value r)
    else node red l k v r
  | node black l k v r =>
    if key < k then balanceLeft (insertBelow key value l) k v r
    else if k < key then balanceRight l k v (insertBelow key value r)
    else node black l k v r

/-- The tree with a value at a key; a key that is there already keeps its value. -/
def insert (key : UInt32) (value : α) (t : Tree α) : Tree α := paint black (insertBelow key value t)

/-! ## Removal -/

/-- A node whose left side lacks one black node. -/
def shortLeft : Tree α → UInt32 → α → Tree α → Tree α
  | node red a j u b, k, v, c => node red (node black a j u b) k v c
  | a, j, u, node black b k v c => balanceRight a j u (node red b k v c)
  | a, j, u, node red (node black b k v c) l w d =>
    node red (node black a j u b) k v (balanceRight c l w (paint red d))
  | a, k, v, b => node red a k v b

/-- A node whose right side lacks one black node. -/
def shortRight : Tree α → UInt32 → α → Tree α → Tree α
  | a, j, u, node red b k v c => node red a j u (node black b k v c)
  | node black a j u b, k, v, c => balanceLeft (node red a j u b) k v c
  | node red a j u (node black b k v c), l, w, d =>
    node red (balanceLeft (paint red a) j u b) k v (node black c l w d)
  | a, k, v, b => node red a k v b

/-- A node whose left side was `before` and has become `after` by losing an entry. -/
def joinLeft (before after : Tree α) (key : UInt32) (value : α) (right : Tree α) : Tree α :=
  if before.isBlackNode then shortLeft after key value right else node red after key value right

/-- A node whose right side was `before` and has become `after` by losing an entry. -/
def joinRight (left : Tree α) (key : UInt32) (value : α) (before after : Tree α) : Tree α :=
  if before.isBlackNode then shortRight left key value after else node red left key value after

/-- The smallest entry of a node and the tree without it. -/
def splitMin : Tree α → UInt32 → α → Tree α → (UInt32 × α) × Tree α
  | leaf, k, v, r => ((k, v), r)
  | node c l j u m, k, v, r =>
    let (least, rest) := splitMin l j u m
    (least, joinLeft (node c l j u m) rest k v r)

/-- Removal below the root, which may leave a side one black node short. -/
def eraseBelow (key : UInt32) : Tree α → Tree α
  | leaf => leaf
  | node _ l k v r =>
    if key < k then joinLeft l (eraseBelow key l) k v r
    else if k < key then joinRight l k v r (eraseBelow key r)
    else
      match r with
      | leaf => l
      | node c a j u b =>
        let (least, rest) := splitMin a j u b
        joinRight l least.1 least.2 (node c a j u b) rest

/-- The tree without the entry at a key. -/
def erase (key : UInt32) (t : Tree α) : Tree α := paint black (eraseBelow key t)

/-! ## Changes that tell whether they were made -/

/-- Add an entry; `false` if its key is there already. -/
def add (key : UInt32) (value : α) (t : Tree α) : Tree α × Bool :=
  if t.contains key then (t, false) else (t.insert key value, true)

/-- Remove the entry at a key; `false` if there is none. -/
def remove (key : UInt32) (t : Tree α) : Tree α × Bool :=
  if t.contains key then (t.erase key, true) else (t, false)

end Tree

end GossipRing.RedBlack
