import GossipRing.RedBlack.Tree

/-!
# Red-black trees in an arena

The nodes of a tree stand in numbered slots and name each other by number, down to both sides and
up to the parent. Slot `0` is a black sentinel that stands for every missing child and has no entry.
A removed entry's slot is used again.

* **`Links`** — the slots and the number of the root. `rotate` turns a node down to one side, and
  `transplant` hangs one node in another's place.
* **`Links.lowerBound`**, **`Links.upperBound`** — where a cursor is set. **`Links.next`** steps on, down
  to the right or up over the parents (`Links.successor`).
* **`Links.mendRed`** — climbs from a red node whose parent may be red. **`Links.mendShort`** climbs
  from a node that lacks a black one on every path.
* **`Arena`** — the links with the slots that are free. **`Arena.insert`** and **`Arena.remove`**
  change links in place, where `Tree.insert` and `Tree.erase` rebuild a path.

Every step is partial: it has no result where a slot is named that does not exist, where a missing
child would be rotated up, or where a loop goes on for more turns than it can need (`Links.turns`).
-/

namespace GossipRing.RedBlack

inductive Side where
  | left
  | right
  deriving DecidableEq, Inhabited, Repr

/-- The other side. -/
def Side.opp : Side → Side
  | left => right
  | right => left

/-- One slot of an arena. -/
structure Slot (α : Type) where
  key : UInt32
  value : Option α
  color : Color
  left : Nat
  right : Nat
  parent : Nat
  deriving DecidableEq, Inhabited, Repr

namespace Slot

variable {α : Type}

/-- What a slot without an entry holds, slot `0` among them. -/
def sentinel : Slot α where
  key := 0
  value := none
  color := .black
  left := 0
  right := 0
  parent := 0

def child (side : Side) (slot : Slot α) : Nat :=
  match side with
  | .left => slot.left
  | .right => slot.right

def setChild (side : Side) (child : Nat) (slot : Slot α) : Slot α :=
  match side with
  | .left => { slot with left := child }
  | .right => { slot with right := child }

end Slot

/-- Repeat `body` as long as `test` asks for it. There is no result if it still does after this many
turns. -/
def repeatWhile {σ : Type} (test : σ → Option Bool) (body : σ → Option σ) : Nat → σ → Option σ
  | 0, _ => none
  | turns + 1, s => do
    if ← test s then
      repeatWhile test body turns (← body s)
    else
      some s

/-- The slots of a tree and the number of its root. -/
structure Links (α : Type) where
  slots : Array (Slot α)
  root : Nat
  deriving DecidableEq, Inhabited, Repr

namespace Links

variable {α : Type}

/-! ## Single slots -/

/-- Change one slot. -/
def update (a : Links α) (i : Nat) (change : Slot α → Slot α) : Option (Links α) := do
  let slot ← a.slots[i]?
  some { a with slots := a.slots.setIfInBounds i (change slot) }

def color (a : Links α) (i : Nat) : Option Color := a.slots[i]?.map Slot.color

def parent (a : Links α) (i : Nat) : Option Nat := a.slots[i]?.map Slot.parent

def child (a : Links α) (side : Side) (i : Nat) : Option Nat := a.slots[i]?.map (Slot.child side)

def paint (a : Links α) (i : Nat) (color : Color) : Option (Links α) :=
  a.update i fun slot => { slot with color := color }

def setParent (a : Links α) (i parent : Nat) : Option (Links α) :=
  a.update i fun slot => { slot with parent := parent }

def setChild (a : Links α) (side : Side) (i child : Nat) : Option (Links α) :=
  a.update i (Slot.setChild side child)

/-- For how many turns a loop may go on. No way through the slots is longer than there are slots, and
none goes by one of them more than twice. -/
def turns (a : Links α) : Nat := 2 * a.slots.size

/-! ## Searching -/

/-- There is a slot, with another key. -/
def isApart (a : Links α) (key : UInt32) (cur : Nat) : Option Bool :=
  if cur = 0 then some false
  else do
    let slot ← a.slots[cur]?
    some (slot.key ≠ key)

/-- Go down from a slot with another key to the side on which this key belongs. -/
def descend (a : Links α) (key : UInt32) (cur : Nat) : Option (Nat × Nat) := do
  let slot ← a.slots[cur]?
  some (cur, if key < slot.key then slot.left else slot.right)

/-- Go down from the root to the slot with this key. The result is the slot above it, and that slot or
`0` in its place. -/
def seek (a : Links α) (key : UInt32) : Option (Nat × Nat) :=
  repeatWhile (fun s => a.isApart key s.2) (fun s => a.descend key s.2) a.turns (0, a.root)

/-- The slot with this key, or `0`. -/
def find (a : Links α) (key : UInt32) : Option Nat := do
  let (_, found) ← a.seek key
  some found

/-- The value at this key. The sentinel has none. -/
def get? (a : Links α) (key : UInt32) : Option (Option α) := do
  let slot ← a.slots[← a.find key]?
  some slot.value

/-- There is a slot to the left. -/
def hasLeft (a : Links α) (i : Nat) : Option Bool := do
  some ((← a.child .left i) ≠ 0)

/-- The slot with the smallest key of those under `i`. -/
def leftmost (a : Links α) (i : Nat) : Option Nat :=
  repeatWhile a.hasLeft (a.child .left) a.turns i

/-- The slot with the smallest key of those under `i`, or `0` where there is none. -/
def minimum (a : Links α) (i : Nat) : Option Nat :=
  if i = 0 then some 0 else a.leftmost i

/-! ## Going through

A cursor is the number of a slot. It is `0` once there is nothing more. -/

/-- The entry in a slot. The sentinel has none. -/
def entry (a : Links α) (i : Nat) : Option (Option (UInt32 × α)) := do
  let slot ← a.slots[i]?
  some (slot.value.map fun v => (slot.key, v))

/-- On the first entry. -/
def start (a : Links α) : Option Nat := a.minimum a.root

/-- The entry with the smallest key. -/
def min? (a : Links α) : Option (Option (UInt32 × α)) := do
  a.entry (← a.start)

/-- There is a slot `p`, and `n` is its right child. -/
def isRightOf (a : Links α) (n p : Nat) : Option Bool :=
  if p = 0 then some false
  else do
    some ((← a.child .right p) = n)

/-- Go up to a slot, with what is above it. -/
def climb (a : Links α) (p : Nat) : Option (Nat × Nat) := do
  some (p, ← a.parent p)

/-- The slot with the next key. It is the first one on the right side, or, where there is none, the
first one above that is not come to from its right side. -/
def successor (a : Links α) (n : Nat) : Option Nat := do
  let right ← a.child .right n
  if right ≠ 0 then a.minimum right
  else
    let p ← a.parent n
    let (_, p) ← repeatWhile (fun s => a.isRightOf s.1 s.2) (fun s => a.climb s.2) a.turns (n, p)
    some p

/-- The key of the entry that a cursor is on. -/
def key? (a : Links α) (i : Nat) : Option (Option UInt32) := do
  some ((← a.entry i).map Prod.fst)

/-- The value of the entry that a cursor is on. -/
def value? (a : Links α) (i : Nat) : Option (Option α) := do
  let slot ← a.slots[i]?
  some slot.value

/-- The entry that a cursor is on, and the cursor on the one after it. Where there is none the cursor
stays. -/
def next (a : Links α) (i : Nat) : Option (Option (UInt32 × α) × Nat) := do
  match ← a.entry i with
  | none => some (none, i)
  | some e => some (some e, ← a.successor i)

/-- Go down from a slot. A key that is not below the given one is kept as the best yet. -/
def narrow (a : Links α) (key : UInt32) (found cur : Nat) : Option (Nat × Nat) := do
  let slot ← a.slots[cur]?
  some (if key ≤ slot.key then (cur, slot.left) else (found, slot.right))

/-- On the first entry with a key not below `key`. -/
def lowerBound (a : Links α) (key : UInt32) : Option Nat := do
  let (found, _) ← repeatWhile (fun s => some (s.2 ≠ 0)) (fun s => a.narrow key s.1 s.2) a.turns
    (0, a.root)
  some found

/-- The cursor is on this key. -/
def isAt (a : Links α) (key : UInt32) (i : Nat) : Option Bool := do
  some ((← a.key? i) = some key)

/-- On the first entry with a key above `key`: what has the key itself is gone by. -/
def upperBound (a : Links α) (key : UInt32) : Option Nat := do
  let i ← a.lowerBound key
  repeatWhile (a.isAt key) (fun i => (a.next i).map Prod.snd) a.turns i

/-! ## Moving nodes -/

/-- Let `new` hang below `p` where `old` does, or be the root if there is no `p`. Only one side of
`p` is looked at. -/
def hang (a : Links α) (side : Side) (p old new : Nat) : Option (Links α) :=
  if p = 0 then some { a with root := new }
  else do
    if (← a.child side p) = old then a.setChild side p new
    else a.setChild side.opp p new

/-- Set the parent of a node, of which there may be none. -/
def adopt (a : Links α) (i parent : Nat) : Option (Links α) :=
  if i = 0 then some a else a.setParent i parent

/-- Turn `x` down to one side; its child on the other side comes up in its place. -/
def rotate (a : Links α) (side : Side) (x : Nat) : Option (Links α) := do
  let y ← a.child side.opp x
  if y = 0 then none
  else
    let inner ← a.child side y
    let a ← a.setChild side.opp x inner
    let a ← a.adopt inner x
    let p ← a.parent x
    let a ← a.setParent y p
    let a ← a.hang side p x y
    let a ← a.setChild side y x
    a.setParent x y

/-- Hang `v` in the place of `u`. The parent of `v` is set even if `v` is the sentinel: the way up
from there is needed. -/
def transplant (a : Links α) (u v : Nat) : Option (Links α) := do
  let p ← a.parent u
  let a ← a.hang .left p u v
  a.setParent v p

/-- The side of `p` on which `i` hangs. -/
def sideOf (a : Links α) (p i : Nat) : Option Side := do
  if (← a.child .left p) = i then some .left else some .right

/-- Hang the slot `z`, which is to have this key, below `parent`. -/
def attach (a : Links α) (key : UInt32) (parent z : Nat) : Option (Links α) :=
  if parent = 0 then some { a with root := z }
  else do
    let slot ← a.slots[parent]?
    if key < slot.key then a.setChild .left parent z else a.setChild .right parent z

/-! ## Mending a red node below a red one -/

/-- The parent of `z` is red. -/
def isBelowRed (a : Links α) (z : Nat) : Option Bool := do
  let color ← a.color (← a.parent z)
  some (color = .red)

/-- `z` hangs on the outer side of its red parent `p`, or is made to: what comes below the other is
the red node to go on with. -/
def turnOut (a : Links α) (side : Side) (p z : Nat) : Option (Links α × Nat) := do
  if (← a.child side.opp p) = z then
    let a ← a.rotate side p
    some (a, p)
  else some (a, z)

/-- A red parent and its red sibling become black, and the grandparent red. -/
def recolor (a : Links α) (p uncle g : Nat) : Option (Links α) := do
  let a ← a.paint p .black
  let a ← a.paint uncle .black
  a.paint g .red

/-- A red parent becomes black and comes up in the place of the grandparent, which becomes red. -/
def bringUp (a : Links α) (side : Side) (p z : Nat) : Option (Links α × Nat) := do
  let (a, z) ← a.turnOut side p z
  let p ← a.parent z
  let g ← a.parent p
  let a ← a.paint p .black
  let a ← a.paint g .red
  let a ← a.rotate side.opp g
  some (a, z)

/-- One step up from a red node `z` below a red one, by the colour of the parent's sibling. -/
def liftRed (a : Links α) (z : Nat) : Option (Links α × Nat) := do
  let p ← a.parent z
  let g ← a.parent p
  let side ← a.sideOf g p
  let uncle ← a.child side.opp g
  if (← a.color uncle) = .red then
    let a ← a.recolor p uncle g
    some (a, g)
  else a.bringUp side p z

/-- Go up from a red node until none is below a red one, and paint the root black. -/
def mendRed (a : Links α) (z : Nat) : Option (Links α) := do
  let (a, _) ← repeatWhile (fun s => s.1.isBelowRed s.2) (fun s => s.1.liftRed s.2) a.turns (a, z)
  a.paint a.root .black

/-! ## Mending a side that lacks a black node -/

/-- `x` is black and not the root. -/
def isShort (a : Links α) (x : Nat) : Option Bool := do
  if x = a.root then some false
  else
    let color ← a.color x
    some (color = .black)

/-- The sibling `w` of `x` below `p`, which is made black if it is red. -/
def blackSibling (a : Links α) (side : Side) (p x w : Nat) : Option (Links α × Nat) := do
  if (← a.color w) = .red then
    let a ← a.paint w .black
    let a ← a.paint p .red
    let a ← a.rotate side p
    let w ← a.child side.opp (← a.parent x)
    some (a, w)
  else some (a, w)

/-- The sibling `w` of `x`, whose outer child is made red if it is black. -/
def redOuter (a : Links α) (side : Side) (x w : Nat) : Option (Links α × Nat) := do
  if (← a.color (← a.child side.opp w)) = .black then
    let a ← a.paint (← a.child side w) .black
    let a ← a.paint w .red
    let a ← a.rotate side.opp w
    let w ← a.child side.opp (← a.parent x)
    some (a, w)
  else some (a, w)

/-- The sibling `w` of `x`, both children of which are black, becomes red. Then it is the parent that
lacks a black node. -/
def passUp (a : Links α) (x w : Nat) : Option (Links α × Nat) := do
  let a ← a.paint w .red
  let p ← a.parent x
  some (a, p)

/-- The sibling `w` of `x`, which has a red child, comes up in the place of the parent, and the
parent becomes the black node that `x` lacks. Then there is nothing to do above. -/
def borrow (a : Links α) (side : Side) (x w : Nat) : Option (Links α × Nat) := do
  let (a, w) ← a.redOuter side x w
  let p ← a.parent x
  let a ← a.paint w (← a.color p)
  let a ← a.paint p .black
  let a ← a.paint (← a.child side.opp w) .black
  let a ← a.rotate side p
  some (a, a.root)

/-- One step up from a node `x` that lacks a black one on every path, by the children of its
sibling. -/
def liftShort (a : Links α) (x : Nat) : Option (Links α × Nat) := do
  let p ← a.parent x
  let side ← a.sideOf p x
  let w ← a.child side.opp p
  let (a, w) ← a.blackSibling side p x w
  let near ← a.color (← a.child side w)
  let far ← a.color (← a.child side.opp w)
  if near = .black ∧ far = .black then a.passUp x w else a.borrow side x w

/-- Go up from a node that lacks a black one until it can be made up for. -/
def mendShort (a : Links α) (x : Nat) : Option (Links α) := do
  let (a, x) ← repeatWhile (fun s => s.1.isShort s.2) (fun s => s.1.liftShort s.2) a.turns (a, x)
  a.paint x .black

/-! ## Taking a node out -/

/-- Take `y`, the leftmost node on the right side of `z`, out of its place, and give it the right
side of `z`. The child `x` of `y` is left where `y` was. -/
def takeLeftmost (a : Links α) (z y x : Nat) : Option (Links α) := do
  if (← a.parent y) = z then a.setParent x y
  else
    let a ← a.transplant y x
    let r ← a.child .right z
    let a ← a.setChild .right y r
    a.setParent r y

/-- Put `y` in the place of `z`, with the left side and the colour of `z`. -/
def succeed (a : Links α) (z y : Nat) : Option (Links α) := do
  let a ← a.transplant z y
  let l ← a.child .left z
  let a ← a.setChild .left y l
  let a ← a.setParent l y
  a.paint y (← a.color z)

/-- Take `z` out. The result tells what has come up where a node is missing now, and which colour
that node had. -/
def detach (a : Links α) (z : Nat) : Option (Links α × Nat × Color) := do
  let slot ← a.slots[z]?
  if slot.left = 0 then
    let a ← a.transplant z slot.right
    some (a, slot.right, slot.color)
  else if slot.right = 0 then
    let a ← a.transplant z slot.left
    some (a, slot.left, slot.color)
  else
    let y ← a.leftmost slot.right
    let color ← a.color y
    let x ← a.child .right y
    let a ← a.takeLeftmost z y x
    let a ← a.succeed z y
    some (a, x, color)

/-- Take `z` out and mend what is left. Nothing is to be mended where a red node is missing. -/
def cut (a : Links α) (z : Nat) : Option (Links α) := do
  let (a, x, color) ← a.detach z
  if color = .black then a.mendShort x else some a

end Links

/-- A tree in an arena. -/
structure Arena (α : Type) extends Links α where
  /-- The slots that removed entries have left, the last one first. -/
  free : List Nat
  size : Nat
  deriving DecidableEq, Inhabited, Repr

namespace Arena

variable {α : Type}

/-- The arena of the empty tree: nothing but the sentinel. -/
def empty : Arena α where
  slots := #[Slot.sentinel]
  root := 0
  free := []
  size := 0

def isEmpty (a : Arena α) : Bool := a.size == 0

/-- A slot for a new red entry below `parent`. -/
def alloc (a : Arena α) (key : UInt32) (value : α) (parent : Nat) : Option (Arena α × Nat) :=
  let slot : Slot α :=
    { key := key, value := some value, color := .red, left := 0, right := 0, parent := parent }
  match a.free with
  | i :: free => do
    let links ← a.update i fun _ => slot
    some ({ a with toLinks := links, free := free }, i)
  | [] => some ({ a with slots := a.slots.push slot }, a.slots.size)

/-- Empty a slot and set it free. -/
def release (a : Arena α) (i : Nat) : Option (Arena α) := do
  let links ← a.update i fun _ => Slot.sentinel
  some { a with toLinks := links, free := i :: a.free }

/-- Add an entry; `false` if its key is there already. -/
def insert (a : Arena α) (key : UInt32) (value : α) : Option (Arena α × Bool) := do
  let (parent, cur) ← a.seek key
  if cur ≠ 0 then some (a, false)
  else
    let (a, z) ← a.alloc key value parent
    let links ← a.attach key parent z
    let links ← links.mendRed z
    some ({ a with toLinks := links, size := a.size + 1 }, true)

/-- Remove the entry at a key; `false` if there is none. The sentinel, whose parent may have been
set on the way, is put right at the end. -/
def remove (a : Arena α) (key : UInt32) : Option (Arena α × Bool) := do
  let z ← a.find key
  if z = 0 then some (a, false)
  else
    let links ← a.cut z
    let a ← release { a with toLinks := links } z
    let links ← a.setParent 0 0
    let links ← links.paint 0 .black
    some ({ a with toLinks := links, size := a.size - 1 }, true)

end Arena

end GossipRing.RedBlack
