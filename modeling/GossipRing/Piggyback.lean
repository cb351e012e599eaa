import GossipRing.Membership

/-!
# Claims waiting to ride along

A claim that took effect is attached to the messages a node sends until it has gone out often
enough. There is at most one claim about each member, the latest.

* **`Piggyback.record`** — a new claim replaces an older one about the same member, starts its
  count again and takes the last place.
* **`Piggyback.issue`** — hand out every claim that has not gone out more than `limit` times, and
  drop the others. With a limit of `n` a claim goes out `n + 1` times and the next issue drops it.
* **`Piggyback.answer`** — the claims to answer a message with. If nothing is waiting and the
  sender's table differs from this node's, it is the whole table.
-/

namespace GossipRing

/-- A claim and how often it has gone out. -/
structure Pending where
  change : Change
  issued : Nat
  deriving DecidableEq, Repr

/-- The claims waiting to ride along, in the order they were last recorded. -/
structure Piggyback where
  limit : UInt32
  pending : List Pending
  deriving DecidableEq, Repr

namespace Piggyback

def empty (limit : UInt32) : Piggyback := ⟨limit, []⟩

/-- Let a claim wait in the last place, instead of any other about the same member. -/
def record (b : Piggyback) (c : Change) : Piggyback :=
  { b with pending := b.pending.filter (fun p => p.change.address ≠ c.address) ++ [⟨c, 0⟩] }

def recordAll (b : Piggyback) (changes : List Change) : Piggyback := changes.foldl record b

/-- The claim may still go out. -/
def isLive (b : Piggyback) (p : Pending) : Bool := p.issued ≤ b.limit.toNat

/-- Hand out the claims that may still go out, and drop the others. -/
def issue (b : Piggyback) : Piggyback × List Change :=
  let live := b.pending.filter b.isLive
  ({ b with pending := live.map fun p => { p with issued := p.issued + 1 } },
    live.map Pending.change)

/-- The claims to answer a message with, given the checksum of the sender's table. -/
def answer (b : Piggyback) (senderChecksum : Option UInt32) (m : Membership) (now : Clock) :
    Piggyback × List Change :=
  let (b, changes) := b.issue
  if changes.isEmpty && senderChecksum ≠ m.checksum then (b, m.snapshot now) else (b, changes)

end Piggyback

end GossipRing
