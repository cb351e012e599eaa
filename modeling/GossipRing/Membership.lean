import GossipRing.Attempt
import GossipRing.Chance
import GossipRing.Hash.Wyhash
import GossipRing.Moment
import GossipRing.Precedence
import GossipRing.Snapshot

/-!
# The membership table

One node's view of every member it has ever heard of. Rows are never deleted: members that are
gone stay as `leave`, `faulty` or `tombstone`, so that late news about them meets a known
incarnation.

* **`Membership.update`** — apply a batch of claims by precedence. A claim that this node is down
  is refuted by a claim that it is alive at a fresh incarnation.
* **The gate.** Until the node has joined, claims are held back in arrival order; only the node's
  own claim to be alive gets through. `Membership.adopt` takes over the snapshots gathered while
  joining, `Membership.openGate` replays what was held back.
* **The checksum** is the hash of all rows, sorted and joined, so equal tables have equal
  checksums wherever their rows stand. It is renewed with every batch that takes effect.
* **The log.** `events` lists every renewal and every batch in the order they happened.
-/

namespace GossipRing

/-- What a table reports to its listeners. -/
inductive MembershipEvent where
  /-- The claims of one batch that took effect, in order. -/
  | updated (changes : List Change)
  /-- The claims that took effect while snapshots were adopted. -/
  | adopted (changes : List Change)
  | checksumComputed (checksum : UInt32) (old : Option UInt32)
  deriving DecidableEq, Repr

/-- Whether claims of others are applied or held back. -/
inductive Gate where
  | closed (stash : List Change)
  | opened
  deriving DecidableEq, Repr

namespace Gate

/-- The claims that are held back, in arrival order. -/
def stash : Gate → List Change
  | closed held => held
  | opened => []

def isOpen : Gate → Bool
  | closed _ => false
  | opened => true

end Gate

/-- One node's view of all members. -/
structure Membership where
  /-- The address of the node whose view this is. -/
  here : String
  rows : List Member
  /-- `none` until the first claim has taken effect. -/
  checksum : Option UInt32
  gate : Gate
  hash : HashFunction
  events : List MembershipEvent
  /-- Where new rows will be inserted. -/
  chance : Chance

namespace Membership

/-- The empty table of a node that has not joined. -/
def empty (here : String) (hash : HashFunction) (chance : Chance) : Membership where
  here := here
  rows := []
  checksum := none
  gate := .closed []
  hash := hash
  events := []
  chance := chance

/-- The row of this address. -/
def row? (m : Membership) (address : String) : Option Member :=
  m.rows.find? fun row => row.address = address

/-- The node's own row. -/
def localRow? (m : Membership) : Option Member := m.row? m.here

/-- The node's own incarnation, zero while it has no row. -/
def localIncarnation (m : Membership) : UInt64 :=
  match m.localRow? with
  | some row => row.incarnation
  | none => 0

def isReady (m : Membership) : Bool := m.gate.isOpen

/-- Whether this node may probe the member. -/
def isPingable (m : Membership) (member : Member) : Bool :=
  member.address ≠ m.here && member.status.isPingable

/-- The largest incarnation. -/
def lastIncarnation : UInt64 := 0xFFFFFFFFFFFFFFFF

/-- An incarnation above the node's own, the wall clock if that is greater. There is none above
the largest one. -/
def freshIncarnation? (m : Membership) (now : Clock) : Option UInt64 :=
  if m.localIncarnation = lastIncarnation then none
  else some (max now.reading (m.localIncarnation + 1))

/-- The whole table as claims made by this node. -/
def snapshot (m : Membership) (now : Clock) : List Change :=
  m.rows.map fun row => Change.ofMember row m.here m.localIncarnation now.reading

/-- What the checksum is the hash of: the rows' texts, sorted by bytes and joined. -/
def checksumText (m : Membership) : String :=
  String.intercalate ";" ((m.rows.map Member.checksumText).mergeSort fun a b => decide (a ≤ b))

def computeChecksum (m : Membership) : UInt32 := m.hash m.checksumText

/-! ## Rows -/

/-- Overwrite the row of the same address. -/
def overwriteRow (row : Member) (rows : List Member) : List Member :=
  rows.map fun r => if r.address = row.address then row else r

/-- Overwrite the row of the same address, or insert a new one at a drawn position. -/
def put (m : Membership) (row : Member) : Membership :=
  match m.row? row.address with
  | some _ => { m with rows := overwriteRow row m.rows }
  | none =>
    let (position, chance) := m.chance.draw (m.rows.length + 1)
    { m with rows := m.rows.insertIdx position row, chance := chance }

/-- Overwriting a row changes what is found at its address, if anything was. -/
theorem find?_overwriteRow (row : Member) (rows : List Member) (address : String) :
    (overwriteRow row rows).find? (fun r => r.address = address) =
      if address = row.address then (rows.find? fun r => r.address = address).map fun _ => row
      else rows.find? fun r => r.address = address := by
  unfold overwriteRow
  induction rows with
  | nil => simp
  | cons r rest ih =>
    rw [List.map_cons, List.find?_cons, List.find?_cons, ih]
    by_cases hr : r.address = row.address
    · by_cases ha : address = row.address
      · simp [hr, ha]
      · have hne : ¬row.address = address := fun h => ha h.symm
        simp [hr, ha, hne]
    · by_cases ha : r.address = address
      · have hne : ¬address = row.address := fun h => hr (ha.trans h)
        simp [ha, hne]
      · simp [hr, ha]

/-- An inserted row is found wherever it stands, unless another one passes the same test. -/
theorem find?_insertIdx (p : Member → Bool) (rows : List Member) (position : Nat) (row : Member)
    (h : position ≤ rows.length) (hnone : p row = true → ∀ r ∈ rows, p r = false) :
    (rows.insertIdx position row).find? p = if p row then some row else rows.find? p := by
  induction rows generalizing position with
  | nil =>
    have : position = 0 := by simpa using h
    subst this
    cases hp : p row <;> simp [hp]
  | cons r rest ih =>
    cases position with
    | zero => cases hp : p row <;> simp [hp]
    | succ position =>
      rw [List.insertIdx_succ_cons, List.find?_cons, List.find?_cons,
        ih position (by simpa using h) fun hp r hr => hnone hp r (List.mem_cons_of_mem _ hr)]
      cases hr : p r with
      | false => rfl
      | true =>
        cases hp : p row with
        | false => rfl
        | true => exact absurd (hnone hp r List.mem_cons_self) (by simp [hr])

/-- A row that was put is there, and every other address has the row it had. -/
theorem row?_put (m : Membership) (row : Member) (address : String) :
    (m.put row).row? address = if address = row.address then some row else m.row? address := by
  unfold put
  split
  · next old hold =>
    rw [row?, find?_overwriteRow]
    split
    · next ha =>
      rw [ha]
      exact congrArg (Option.map fun _ => row) hold
    · rfl
  · next hnone =>
    have hbound := m.chance.draw_lt (Nat.succ_pos m.rows.length)
    rw [row?, find?_insertIdx]
    · simp only [eq_comm (a := row.address), decide_eq_true_eq]
      rfl
    · exact Nat.le_of_lt_succ hbound
    · intro hrow r hr
      have hother := List.find?_eq_none.mp hnone r hr
      rw [decide_eq_true_eq] at hrow hother
      rw [← hrow]
      exact decide_eq_false hother

/-! ## Applying claims -/

/-- The answer to a claim that this node is down: it is alive at incarnation `inc`. -/
def refutation (m : Membership) (inc : UInt64) (now : Clock) : Change where
  address := m.here
  status := .alive
  incarnation := inc
  source := m.here
  sourceIncarnation := inc
  timestamp := now.reading

/-- Apply one claim. The result is the claim that took effect, if one did: the given one, or the
refutation of it. Nobody introduces this node in a bad state. -/
def apply (now : Clock) (m : Membership) (c : Change) : Attempt Membership (Option Change) :=
  match m.row? c.address with
  | none =>
    if c.address = m.here ∧ c.status ≠ .alive then .done m none
    else .done (m.put c.toMember) (some c)
  | some row =>
    if Precedence.isForeignLeave m.here row c then .done m none
    else if Precedence.callsLocalDown m.here row c then
      match m.freshIncarnation? now with
      | none => .exhausted m
      | some inc =>
        let answer := m.refutation inc now
        .done (m.put answer.toMember) (some answer)
    else if Precedence.overrides row c then .done (m.put c.toMember) (some c)
    else .done m none

/-- Apply claims in order, leaving out malformed ones. The clock is read anew for each. The result lists
those that took effect. -/
def applyAll (now : Clock) (m : Membership) : List Change → Attempt Membership (List Change)
  | [] => .done m []
  | c :: rest =>
    if c.isMalformed then applyAll now.next m rest
    else
      (apply now m c).andThen fun m effect =>
        (applyAll now.next m rest).map fun effects => effect.toList ++ effects

/-- Renew the checksum and log the renewal. -/
def renewChecksum (m : Membership) : Membership :=
  let checksum := m.computeChecksum
  { m with
    checksum := some checksum
    events := m.events ++ [.checksumComputed checksum m.checksum] }

/-- Renew the checksum and log the batch, unless nothing took effect. -/
def conclude (m : Membership) (effects : List Change) : Membership :=
  if effects.isEmpty then m
  else
    let m := m.renewChecksum
    { m with events := m.events ++ [.updated effects] }

/-- Apply claims in order and log them as one batch. -/
def applyBatch (now : Clock) (m : Membership) (changes : List Change) :
    Attempt Membership (List Change) :=
  (applyAll now m changes).andThen fun m effects => .done (m.conclude effects) effects

/-- Hold claims back behind those already held. -/
def holdBack (m : Membership) (changes : List Change) : Membership :=
  { m with gate := .closed (m.gate.stash ++ changes.filter fun c => !c.isMalformed) }

/-- Take in a batch of claims. Behind the closed gate everything is held back but the node's own
claim to be alive. -/
def update (m : Membership) (now : Clock) (changes : List Change) (localAlive : Bool) :
    Attempt Membership (List Change) :=
  if m.isReady || localAlive then applyBatch now m changes
  else .done (m.holdBack changes) []

/-- Make a claim of this node's own about some member, and take it in. -/
def assert (m : Membership) (now : Clock) (address : String) (status : Status)
    (incarnation : UInt64) : Attempt Membership (List Change) :=
  let claim : Change :=
    { address := address
      status := status
      incarnation := incarnation
      source := m.here
      sourceIncarnation := m.localIncarnation
      timestamp := now.reading }
  m.update now [claim] (status = .alive && address = m.here)

/-! ## Joining -/

/-- Take over one claim from a snapshot, unless it is about this node or tells nothing new. -/
def adoptOne (m : Membership) (c : Change) : Membership × Option Change :=
  if c.address = m.here ∨ c.isMalformed then (m, none)
  else if m.row? c.address = some c.toMember then (m, none)
  else (m.put c.toMember, some c)

/-- Take over claims in order; the result lists those that changed a row. -/
def adoptAll (m : Membership) : List Change → Membership × List Change
  | [] => (m, [])
  | c :: rest =>
    let (m, effect) := adoptOne m c
    let (m, effects) := adoptAll m rest
    (m, effect.toList ++ effects)

/-- The gate after reconciliation, which may have used up what was held back. -/
def releaseStash (m : Membership) (consumed : Bool) : Membership :=
  match m.gate with
  | .closed _ => if consumed then { m with gate := .closed [] } else m
  | .opened => m

/-- Adopt the snapshots gathered while joining. What others claim about this node is left out. -/
def adopt (m : Membership) (snapshots : List Snapshot) : Membership × List Change :=
  let merged := Snapshot.reconcile m.here snapshots m.gate.stash
  let (m, effects) := adoptAll (m.releaseStash merged.consumedStash) merged.changes
  let m := m.renewChecksum
  ({ m with events := m.events ++ [.adopted effects] }, effects)

/-- Open the gate and take in what was held back. -/
def openGate (m : Membership) (now : Clock) : Attempt Membership (List Change) :=
  let stash := m.gate.stash
  let m := { m with gate := .opened }
  if stash.isEmpty then .done m [] else m.update now stash false

/-! ## Choosing members -/

/-- The members this node may probe, but for those excluded. -/
def eligible (m : Membership) (excluding : List String) : List Member :=
  m.rows.filter fun row => m.isPingable row && !excluding.contains row.address

/-- Up to `n` eligible members in a drawn order. -/
def sample (m : Membership) (n : Nat) (excluding : List String) (chance : Chance) :
    List Member × Chance :=
  let (order, chance) := Chance.shuffle (m.eligible excluding) chance
  (order.take n, chance)

end Membership

end GossipRing
