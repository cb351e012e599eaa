import GossipRing.Member

/-!
# Precedence of claims

Whether a claim overrides what a table records for a member. A tie between equal incarnations
goes to the worse status. Coming back to life takes a strictly greater incarnation, which only the
member itself can give out, so a member does not flap between alive and suspect.

* **`overrides`** — the claim takes effect on another member's row.
* **`callsLocalDown`** — someone calls this node suspect, faulty or reaped. Incarnations are not
  compared: the node always answers with a fresher one.
* **`isForeignLeave`** — someone else announces this node's departure, which only the node itself
  may do.
-/

namespace GossipRing.Precedence

/-- Alive wins at a strictly greater incarnation. -/
def aliveOverrides (m : Member) (c : Change) : Bool :=
  c.status = .alive && c.incarnation > m.incarnation

/-- Suspicion wins over alive at the same incarnation, over suspect and faulty only at a greater
one, and over departed members never. -/
def suspectOverrides (m : Member) (c : Change) : Bool :=
  c.status = .suspect &&
    match m.status with
    | .alive => c.incarnation ≥ m.incarnation
    | .suspect => c.incarnation > m.incarnation
    | .faulty => c.incarnation > m.incarnation
    | .leave => false
    | .tombstone => false

/-- Faulty wins over alive and suspect at the same incarnation, over faulty only at a greater
one, and over departed members never. -/
def faultyOverrides (m : Member) (c : Change) : Bool :=
  c.status = .faulty &&
    match m.status with
    | .alive => c.incarnation ≥ m.incarnation
    | .suspect => c.incarnation ≥ m.incarnation
    | .faulty => c.incarnation > m.incarnation
    | .leave => false
    | .tombstone => false

/-- A departure wins over everything but a departure, at the same incarnation. -/
def leaveOverrides (m : Member) (c : Change) : Bool :=
  c.status = .leave && m.status ≠ .leave && c.incarnation ≥ m.incarnation

/-- A tombstone wins over everything but a tombstone, at the same incarnation. -/
def tombstoneOverrides (m : Member) (c : Change) : Bool :=
  c.status = .tombstone && m.status ≠ .tombstone && c.incarnation ≥ m.incarnation

/-- Whether the claim takes effect on the row of a member other than this node. -/
def overrides (m : Member) (c : Change) : Bool :=
  aliveOverrides m c || suspectOverrides m c || faultyOverrides m c || leaveOverrides m c ||
    tombstoneOverrides m c

/-- The claim says that this node, whose row is `m`, is suspect. -/
def callsLocalSuspect (here : String) (m : Member) (c : Change) : Bool :=
  m.address = here && c.status = .suspect

/-- The claim says that this node is faulty. -/
def callsLocalFaulty (here : String) (m : Member) (c : Change) : Bool :=
  m.address = here && c.status = .faulty

/-- The claim says that this node has been reaped. -/
def callsLocalTombstone (here : String) (m : Member) (c : Change) : Bool :=
  m.address = here && c.status = .tombstone

/-- The claim calls this node suspect, faulty or reaped, and will be refuted. -/
def callsLocalDown (here : String) (m : Member) (c : Change) : Bool :=
  callsLocalSuspect here m c || callsLocalFaulty here m c || callsLocalTombstone here m c

/-- The claim that this node has left, made by somebody else. -/
def isForeignLeave (here : String) (m : Member) (c : Change) : Bool :=
  m.address = here && c.status = .leave && c.source ≠ here

end GossipRing.Precedence
