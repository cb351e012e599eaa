import GossipRing.Error
import GossipRing.GossipStatus
import GossipRing.Moment
import GossipRing.Piggyback
import GossipRing.Ring
import GossipRing.Rotation
import GossipRing.Suspicion
import GossipRing.Wire.Settings

/-!
# A node

Everything one node keeps: its table, the ring, the claims waiting to ride along, the suspicion
timers and the order of probing. Whatever a node does is a sequence of steps, each of which reads
the clocks once and takes the node from one state to the next without interruption; this module
has the steps in which claims are taken in, and `Node/` has those that make up its protocol.

* **`Node.spread`** — claims that took effect are passed on, start or stop suspicion timers, and
  move members onto the ring or off it. Alive and suspect members own positions, others do not.
* **`Node.update`**, **`Node.assert`**, **`Node.adopt`**, **`Node.openGate`** — the operations of
  the table, with what took effect spread.
-/

namespace GossipRing

/-- The state of one node. -/
structure Node where
  address : String
  settings : Settings
  membership : Membership
  ring : Ring
  piggyback : Piggyback
  suspicion : Suspicion
  rotation : Rotation
  gossip : GossipStatus
  /-- A bootstrap is under way or has succeeded. -/
  bootstrapped : Bool
  destroyed : Bool

namespace Node

/-- A new node that uses the given hash. -/
def createWith (hash : HashFunction) (address : String) (settings : Settings) (chance : Chance) :
    Except NodeError Node :=
  settings.validate.map fun settings =>
    { address := address
      settings := settings
      membership := .empty address hash chance
      ring := .empty settings.replicaPoints.toNat hash
      piggyback := .empty settings.maxPiggybackCount
      suspicion := .empty address settings.suspicionTimeout
      rotation := .empty
      gossip := .stopped
      bootstrapped := false
      destroyed := false }

/-- A new node. -/
def create (address : String) (settings : Settings) (chance : Chance) : Except NodeError Node :=
  createWith hash32 address settings chance

/-! ## Spreading what took effect -/

/-- A suspicion starts the member's timer, any other claim stops it. -/
def track (elapsed : Nat) (s : Suspicion) (c : Change) : Suspicion :=
  if c.status = .suspect then (s.start elapsed c.toMember).1 else s.stop c.address

/-- The member the claim is about has a row with a status that owns positions, or not. -/
def ownsPositions (m : Membership) (c : Change) : Option Bool :=
  (m.row? c.address).map fun row => row.status.isPingable

/-- The members of a batch that are to be on the ring. -/
def onRing (m : Membership) (effects : List Change) : List String :=
  (effects.filter fun c => ownsPositions m c = some true).map Change.address

/-- The members of a batch that are not to be on the ring. -/
def offRing (m : Membership) (effects : List Change) : List String :=
  (effects.filter fun c => ownsPositions m c = some false).map Change.address

/-- Pass on what took effect to the rest of the node. -/
def spread (n : Node) (now : Moment) (effects : List Change) : Node :=
  if effects.isEmpty then n
  else
    { n with
      piggyback := n.piggyback.recordAll effects
      suspicion := effects.foldl (track now.elapsed) n.suspicion
      ring := (n.ring.addRemove (onRing n.membership effects) (offRing n.membership effects)).1 }

/-- The node with the outcome of an operation on its table. -/
def settle (n : Node) (now : Moment) (outcome : Attempt Membership (List Change)) :
    Attempt Node (List Change) :=
  (outcome.mapState fun m => { n with membership := m }).andThen fun n effects =>
    .done (n.spread now effects) effects

/-! ## Taking in claims -/

/-- Take in claims made by others. -/
def update (n : Node) (now : Moment) (changes : List Change) : Attempt Node (List Change) :=
  n.settle now (n.membership.update now.wall changes false)

/-- Make a claim about some member, and take it in. -/
def assert (n : Node) (now : Moment) (address : String) (status : Status) (incarnation : UInt64) :
    Attempt Node (List Change) :=
  n.settle now (n.membership.assert now.wall address status incarnation)

/-- Adopt the snapshots gathered while joining. -/
def adopt (n : Node) (now : Moment) (snapshots : List Snapshot) : Node × List Change :=
  let (m, effects) := n.membership.adopt snapshots
  (spread { n with membership := m } now effects, effects)

/-- Open the gate and take in what was held back. -/
def openGate (n : Node) (now : Moment) : Attempt Node (List Change) :=
  n.settle now (n.membership.openGate now.wall)

end Node

end GossipRing
