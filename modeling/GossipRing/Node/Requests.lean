import GossipRing.Message
import GossipRing.Node

/-!
# Answering requests

* **`Node.answerJoin`** — take the sender in and send it the whole table.
* **`Node.answerPing`** — take in the sender's claims and answer with this node's.
* **`Node.receivePingReq`**, **`Node.answerPingReq`** — the two halves of a ping-req, between
  which this node pings the target.
-/

namespace GossipRing.Node

/-- Answer a request to join, or refuse it. -/
def answerJoin (n : Node) (now : Moment) (r : JoinRequest) :
    Attempt Node (Except NodeError JoinResponse) :=
  if r.app ≠ n.settings.app then .done n (.error (.invalidJoinApp n.settings.app r.app))
  else if r.source = n.address then .done n (.error (.invalidJoinSource r.source))
  else
    (n.assert now r.source .alive r.incarnation).andThen fun n _ =>
      .done n (.ok
        { app := n.settings.app
          coordinator := n.address
          membership := n.membership.snapshot now.wall
          checksum := n.membership.checksum })

/-- The claims to answer a message with, given the checksum of its sender's table. -/
def answerWith (n : Node) (now : Moment) (senderChecksum : Option UInt32) : Node × List Change :=
  let (buffer, changes) := n.piggyback.answer senderChecksum n.membership now.wall
  ({ n with piggyback := buffer }, changes)

/-- Answer a ping. -/
def answerPing (n : Node) (now : Moment) (r : PingRequest) : Attempt Node PingResponse :=
  (n.update now r.changes).andThen fun n _ =>
    let (n, changes) := n.answerWith now r.checksum
    .done n { changes := changes, status := true }

/-- Take in the claims of a ping-req, before the target is pinged. -/
def receivePingReq (n : Node) (now : Moment) (r : PingReqRequest) : Attempt Node (List Change) :=
  n.update now r.changes

/-- Answer a ping-req once it is known whether the target was reached. -/
def answerPingReq (n : Node) (now : Moment) (r : PingReqRequest) (reached : Bool) :
    Node × PingReqResponse :=
  let (n, changes) := n.answerWith now r.checksum
  (n, { changes := changes, status := reached, target := r.target })

end GossipRing.Node
