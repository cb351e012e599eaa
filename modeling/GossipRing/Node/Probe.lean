import GossipRing.Message
import GossipRing.Node
import GossipRing.Verdict

/-!
# Probing members

In each protocol period a node picks the next member and pings it. If that fails it asks helpers
to ping the member, and judges by what they report: a member that nobody reaches is suspected. A
suspicion that is not refuted in time makes the member faulty.
-/

namespace GossipRing.Node

/-- Pick the member to probe in this period. -/
def pickTarget (n : Node) (chance : Chance) : Option Member × Node × Chance :=
  let (target, rotation, chance) := n.rotation.next n.membership chance
  (target, { n with rotation := rotation }, chance)

/-- A ping with the claims that are waiting. -/
def composePing (n : Node) : Node × PingRequest :=
  let (buffer, changes) := n.piggyback.issue
  ({ n with piggyback := buffer },
    { checksum := n.membership.checksum
      changes := changes
      source := n.address
      sourceIncarnation := n.membership.localIncarnation })

/-- The members to ask for help with a target, and the request to send them. The claims that are
waiting are handed out even if there is nobody to send them to. -/
def composePingReq (n : Node) (target : Member) (chance : Chance) :
    List Member × PingReqRequest × Node × Chance :=
  let (helpers, chance) :=
    n.membership.sample n.settings.pingReqSize.toNat [target.address] chance
  let (buffer, changes) := n.piggyback.issue
  (helpers,
    { checksum := n.membership.checksum
      changes := changes
      source := n.address
      sourceIncarnation := n.membership.localIncarnation
      target := target.address },
    { n with piggyback := buffer },
    chance)

/-- Take in the claims of an answer. -/
def absorb (n : Node) (now : Moment) (changes : List Change) : Attempt Node (List Change) :=
  if changes.isEmpty then .done n [] else n.update now changes

/-- Draw the consequence of a verdict on the target as it was when it was picked. -/
def judge (n : Node) (now : Moment) (target : Member) (verdict : Verdict) :
    Attempt Node (List Change) :=
  match verdict with
  | .reachable => n.assert now target.address .alive target.incarnation
  | .unreachable => n.assert now target.address .suspect target.incarnation
  | .noHelpers => n.assert now target.address .suspect target.incarnation
  | .inconclusive => .done n []

/-- Let the timers run out that are due. -/
def runOut (n : Node) (now : Moment) : Node × List Expiry :=
  let (suspicion, expiries) := n.suspicion.runOut now.elapsed
  ({ n with suspicion := suspicion }, expiries)

/-- Take in the expiry of a suspicion timer: if it still counts, the member is faulty. -/
def expire (n : Node) (now : Moment) (e : Expiry) : Attempt Node (List Change) :=
  let (suspicion, counts) := n.suspicion.claim e
  if counts then { n with suspicion := suspicion }.assert now e.address .faulty e.incarnation
  else .done n []

end GossipRing.Node
