import GossipRing.Node

/-!
# Controlling a node

What its operator can tell a node to do. Each operation that fails leaves the node as it was.
-/

namespace GossipRing.Node

/-- Begin to probe; `false` if the node does so already or has been destroyed. -/
def startGossip (n : Node) : Node × Bool :=
  if n.destroyed ∨ n.gossip = .running then (n, false) else ({ n with gossip := .running }, true)

/-- Stop probing; `false` if the node did not. -/
def stopGossip (n : Node) : Node × Bool :=
  ({ n with gossip := .stopped }, n.gossip = .running)

/-- The node's own row, once it has joined. -/
def ownRow (n : Node) : Except NodeError Member :=
  match n.membership.localRow? with
  | none => .error .missingLocalMember
  | some row => if n.membership.isReady then .ok row else .error .notReady

/-- Announce the departure of this node, and suspect nobody any more. Requests are still answered,
so that others learn of it. -/
def leave (n : Node) (now : Moment) : Attempt Node (Except NodeError Unit) :=
  match n.ownRow with
  | .error e => .done n (.error e)
  | .ok row =>
    if row.status = .leave then .done n (.error .redundantLeave)
    else
      (n.assert now row.address .leave row.incarnation).andThen fun n _ =>
        .done { n with suspicion := n.suspicion.stopAll, gossip := .stopped } (.ok ())

/-- Come back after a departure, at a fresh incarnation. -/
def rejoin (n : Node) (now : Moment) : Attempt Node (Except NodeError Unit) :=
  match n.ownRow with
  | .error e => .done n (.error e)
  | .ok row =>
    if row.status ≠ .leave then .done n (.error .redundantJoin)
    else
      match n.membership.freshIncarnation? now.wall with
      | none => .exhausted n
      | some inc =>
        (n.assert now row.address .alive inc).andThen fun n _ =>
          .done { n with suspicion := n.suspicion.reenable }.startGossip.1 (.ok ())

/-- Turn every faulty member into a tombstone; the result lists those that were. -/
def reap (n : Node) (now : Moment) : Attempt Node (List String) :=
  let claims := (n.membership.rows.filter fun row => row.status = .faulty).map fun row =>
    { Change.ofMember row n.address n.membership.localIncarnation now.wall.reading with
      status := .tombstone }
  (n.update now claims).map fun effects => effects.map Change.address

/-- Change settings of the running node. The number of positions each server owns stays. -/
def configure (n : Node) (patch : Json) : Except NodeError Node :=
  match n.settings.merge patch with
  | .error e => .error e
  | .ok merged =>
    if merged.replicaPoints ≠ n.settings.replicaPoints then
      .error (.invalidConfig "replicaPoints cannot change on a running node")
    else
      .ok { n with
        settings := merged
        piggyback := { n.piggyback with limit := merged.maxPiggybackCount }
        suspicion := { n.suspicion with timeout := merged.suspicionTimeout } }

/-- Stop probing and every timer for good, and give up a join that is under way. Requests are
still answered. -/
def destroy (n : Node) : Node :=
  if n.destroyed then n
  else { n with destroyed := true, gossip := .stopped, suspicion := n.suspicion.stopAll }

end GossipRing.Node
