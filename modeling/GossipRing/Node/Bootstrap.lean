import GossipRing.Join
import GossipRing.Node.Control

/-!
# Bootstrapping a node

A node starts by claiming that it is alive at a fresh incarnation. It then joins its peers, adopts
what they sent, opens its gate and begins to probe. A bootstrap that fails may be tried again.
-/

namespace GossipRing.Node

/-- Begin to bootstrap, unless the node has been destroyed or has done so already. -/
def beginBootstrap (n : Node) (now : Moment) : Attempt Node (Except NodeError Unit) :=
  if n.destroyed then .done n (.error .joinAborted)
  else if n.bootstrapped then .done n (.error .alreadyBootstrapped)
  else
    let n := { n with bootstrapped := true }
    match n.membership.freshIncarnation? now.wall with
    | none => .exhausted n
    | some inc => (n.assert now n.address .alive inc).map fun _ => .ok ()

/-- The join that a bootstrap begins, if there is anybody to join. -/
def beginJoin (n : Node) (now : Moment) (hosts : List String) : Option Join :=
  Join.begin? n.address n.settings n.membership.localIncarnation hosts now.elapsed

/-- The join has failed, and the node may bootstrap again. -/
def failBootstrap (n : Node) : Node := { n with bootstrapped := false }

/-- The join has succeeded: adopt what the hosts sent, and take part. -/
def completeBootstrap (n : Node) (now : Moment) (snapshots : List Snapshot) :
    Attempt Node (List Change) :=
  ((n.adopt now snapshots).1).openGate now

end GossipRing.Node
