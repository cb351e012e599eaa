import GossipRing.Membership
import Mathlib.Data.List.InsertIdx

/-!
# A table with an index

Finding a member by its address does not search the table: an index says where its row stands. New
rows are inserted anywhere, so that every row behind one moves up, and the index with it.

* **`IndexedTable.find?`** — the row at the position that the index gives.
* **`IndexedTable.insertAt`** — a new row at some position, and the index brought up to date from
  there on.
* **`IndexedTable.update`**, **`assert`**, **`adopt`**, **`openGate`** — the operations of a table,
  which read and write rows through the index alone. What they tell is what `Membership` tells, as
  the index is exact.
-/

namespace GossipRing

/-- A table, and for each address where its row stands. -/
structure IndexedTable where
  table : Membership
  index : Std.HashMap String Nat

namespace IndexedTable

/-- The empty table of a node that has not joined. -/
def empty (here : String) (hash : HashFunction) (chance : Chance) : IndexedTable where
  table := .empty here hash chance
  index := ∅

/-- The row that the index gives for this address. -/
def find? (x : IndexedTable) (address : String) : Option Member :=
  match x.index[address]? with
  | some i => x.table.rows[i]?
  | none => none

/-- The node's own incarnation, zero while it has no row. -/
def localIncarnation (x : IndexedTable) : UInt64 :=
  match x.find? x.table.here with
  | some row => row.incarnation
  | none => 0

/-- An incarnation above the node's own, the wall clock if that is greater. -/
def freshIncarnation? (x : IndexedTable) (now : Clock) : Option UInt64 :=
  if x.localIncarnation = Membership.lastIncarnation then none
  else some (max now.reading (x.localIncarnation + 1))

/-! ## Rows -/

/-- The rows from `position` on, each as its address and where it stands. -/
def places (rows : List Member) (position : Nat) : List (String × Nat) :=
  (rows.zipIdx.drop position).map fun (row, i) => (row.address, i)

/-- A new row at this position. -/
def insertAt (x : IndexedTable) (position : Nat) (row : Member) : IndexedTable :=
  let rows := x.table.rows.insertIdx position row
  { table := { x.table with rows := rows }, index := x.index.insertMany (places rows position) }

/-- Overwrite the row of the same address, or insert a new one at a drawn position. -/
def put (x : IndexedTable) (row : Member) : IndexedTable :=
  match x.index[row.address]? with
  | some i => { x with table := { x.table with rows := x.table.rows.set i row } }
  | none =>
    let (position, chance) := x.table.chance.draw (x.table.rows.length + 1)
    insertAt { x with table := { x.table with chance := chance } } position row

/-- Record a status and an incarnation in the row at this position. -/
def amend (x : IndexedTable) (i : Nat) (status : Status) (incarnation : UInt64) : IndexedTable :=
  let amended (row : Member) := { row with status := status, incarnation := incarnation }
  { x with table := { x.table with rows := x.table.rows.modify i amended } }

/-! ## Applying claims -/

/-- Apply one claim to the row at position `i`, which was looked up once. The result is the claim
that took effect, if one did. -/
def applyAt (now : Clock) (x : IndexedTable) (i : Nat) (row : Member) (c : Change) :
    Attempt IndexedTable (Option Change) :=
  if Precedence.isForeignLeave x.table.here row c then .done x none
  else if Precedence.callsLocalDown x.table.here row c then
    match x.freshIncarnation? now with
    | none => .exhausted x
    | some inc => .done (x.amend i .alive inc) (some (x.table.refutation inc now))
  else if Precedence.overrides row c then .done (x.amend i c.status c.incarnation) (some c)
  else .done x none

/-- Apply one claim. A position without a row is none that the index gives. -/
def apply (now : Clock) (x : IndexedTable) (c : Change) : Attempt IndexedTable (Option Change) :=
  match x.index[c.address]? with
  | none =>
    if c.address = x.table.here ∧ c.status ≠ .alive then .done x none
    else .done (x.put c.toMember) (some c)
  | some i =>
    match x.table.rows[i]? with
    | some row => applyAt now x i row c
    | none => .done x none

/-- Apply claims in order, leaving out malformed ones. The result lists those that took effect. -/
def applyAll (now : Clock) (x : IndexedTable) : List Change → Attempt IndexedTable (List Change)
  | [] => .done x []
  | c :: rest =>
    if c.isMalformed then applyAll now.next x rest
    else
      (apply now x c).andThen fun x effect =>
        (applyAll now.next x rest).map fun effects => effect.toList ++ effects

/-- Apply claims in order and log them as one batch. -/
def applyBatch (now : Clock) (x : IndexedTable) (changes : List Change) :
    Attempt IndexedTable (List Change) :=
  (applyAll now x changes).andThen fun x effects =>
    .done { x with table := x.table.conclude effects } effects

/-- Take in a batch of claims. Behind the closed gate everything is held back but the node's own
claim to be alive. -/
def update (x : IndexedTable) (now : Clock) (changes : List Change) (localAlive : Bool) :
    Attempt IndexedTable (List Change) :=
  if x.table.isReady || localAlive then applyBatch now x changes
  else .done { x with table := x.table.holdBack changes } []

/-- Make a claim of this node's own about some member, and take it in. -/
def assert (x : IndexedTable) (now : Clock) (address : String) (status : Status)
    (incarnation : UInt64) : Attempt IndexedTable (List Change) :=
  let claim : Change :=
    { address := address
      status := status
      incarnation := incarnation
      source := x.table.here
      sourceIncarnation := x.localIncarnation
      timestamp := now.reading }
  x.update now [claim] (status = .alive && address = x.table.here)

/-! ## Joining -/

/-- The claim says of its member what the table does not. -/
def differs (x : IndexedTable) (c : Change) : Bool :=
  match x.find? c.address with
  | some row => row.status ≠ c.status || row.incarnation ≠ c.incarnation
  | none => true

/-- Take over one claim from a snapshot, unless it is about this node or tells nothing new. -/
def adoptOne (x : IndexedTable) (c : Change) : IndexedTable × Option Change :=
  if c.address = x.table.here ∨ c.isMalformed then (x, none)
  else if x.differs c then (x.put c.toMember, some c)
  else (x, none)

/-- Take over claims in order; the result lists those that changed a row. -/
def adoptAll (x : IndexedTable) : List Change → IndexedTable × List Change
  | [] => (x, [])
  | c :: rest =>
    let (x, effect) := adoptOne x c
    let (x, effects) := adoptAll x rest
    (x, effect.toList ++ effects)

/-- Adopt the snapshots gathered while joining. -/
def adopt (x : IndexedTable) (snapshots : List Snapshot) : IndexedTable × List Change :=
  let merged := Snapshot.reconcile x.table.here snapshots x.table.gate.stash
  let released := { x with table := x.table.releaseStash merged.consumedStash }
  let (x, effects) := adoptAll released merged.changes
  let m := x.table.renewChecksum
  ({ x with table := { m with events := m.events ++ [.adopted effects] } }, effects)

/-- Open the gate and take in what was held back. -/
def openGate (x : IndexedTable) (now : Clock) : Attempt IndexedTable (List Change) :=
  let stash := x.table.gate.stash
  let x := { x with table := { x.table with gate := .opened } }
  if stash.isEmpty then .done x [] else x.update now stash false

end IndexedTable

end GossipRing
