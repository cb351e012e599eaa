import GossipRing.Chance
import GossipRing.Message
import GossipRing.Settings

/-!
# Joining through a list of hosts

A node asks hosts one after the other to take it in, until enough of them have. A round asks every
host that has not answered well yet, in a drawn order; after a round that falls short the node
pauses, and the pauses get longer.

* **`Join.begin?`** — nothing has been asked yet. A node without peers to join has no join.
* **`Join.nextRound`**, **`Join.take`** — the rounds, and one host's answer.
* **`Join.pause`** — how long to wait after a round: between half the delay and all of it.
-/

namespace GossipRing

/-- A join under way. -/
structure Join where
  /-- The settings as they were when the join began. -/
  settings : Settings
  request : JoinRequest
  /-- How many hosts are to be joined. -/
  wanted : Nat
  /-- The hosts of the current round. -/
  candidates : List String
  /-- Those of them that are still to be asked. -/
  asking : List String
  /-- The hosts that were joined, in order, with the tables they sent. -/
  joined : List (String × Snapshot)
  delay : Duration
  /-- When the join began. -/
  started : Nat
  deriving Repr

namespace Join

/-- The hosts a node can join: each one once, and not itself. -/
def peers (address : String) (hosts : List String) : List String :=
  (hosts.filter fun host => host ≠ address).eraseDups

/-- A join through these hosts, if there is anybody to join. -/
def begin? (address : String) (settings : Settings) (incarnation : UInt64) (hosts : List String)
    (now : Nat) : Option Join :=
  let candidates := peers address hosts
  if candidates.isEmpty then none
  else
    some
      { settings := settings
        request := { app := settings.app, source := address, incarnation := incarnation }
        wanted := min settings.joinSize.toNat candidates.length
        candidates := candidates
        asking := []
        joined := []
        delay := settings.joinDelay
        started := now }

def hasJoined (j : Join) (host : String) : Bool := j.joined.any fun entry => entry.1 = host

/-- Ask everybody again who has not been joined, in a drawn order. -/
def nextRound (j : Join) (chance : Chance) : Join × Chance :=
  let (order, chance) := Chance.shuffle (j.candidates.filter fun host => !j.hasJoined host) chance
  ({ j with candidates := order, asking := order }, chance)

/-- The next host's answer, `none` if it brought nothing usable. A host of another application is
not joined. -/
def take (j : Join) (host : String) (answer : Option JoinResponse) : Join :=
  let j := { j with asking := j.asking.tail }
  match answer with
  | some r =>
    if r.app = j.settings.app then { j with joined := j.joined ++ [(host, r.snapshot)] } else j
  | none => j

/-- Enough hosts have been joined. -/
def isComplete (j : Join) : Bool := j.wanted ≤ j.joined.length

/-- The join has taken too long. -/
def isOverdue (j : Join) (now : Nat) : Bool :=
  j.settings.maxJoinDuration.isExceededBy (now - j.started)

/-- How long to pause after this round, and the join with the delay for the next pause. -/
def pause (j : Join) (chance : Chance) : Nat × Join × Chance :=
  let longest := j.delay.ticks
  let shortest := (longest + 1) / 2
  let (extra, chance) := chance.draw (longest - shortest + 1)
  (shortest + extra, { j with delay := j.delay.doubledUpTo j.settings.maxJoinDelay }, chance)

end Join

end GossipRing
