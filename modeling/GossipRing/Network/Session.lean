import GossipRing.Network.Schedule

/-!
# Working with a network

What somebody outside can do with the nodes of a network: set them up, send them requests, control
them, and let them run. Each operation is done at the present moment; one that waits for an answer
lets time pass until it has it.
-/

namespace GossipRing.World

open Network

/-! ## Peers -/

/-- Register a peer under an address, in place of whoever was there. -/
def register (w : World) (address : String) (peer : Peer) : World × Nat :=
  let index := w.peers.length
  ({ w with
      peers := w.peers ++ [peer]
      routes := (address, index) :: w.routes.filter fun entry => entry.1 ≠ address },
    index)

/-- Set up a node, with a supply of chance for its table. An earlier one of the same name stops to
probe. -/
def spawn (w : World) (name : String) (settings : Settings) (chance : Chance) :
    Except NodeError World :=
  (Node.create name settings chance).map fun n =>
    let w :=
      match w.nodeNumber? name with
      | some old => w.endLoop old
      | none => w
    let (w, index) := w.register name (.node n)
    { w with nodes := (name, index) :: w.nodes }

/-- Set up a stub. -/
def addStub (w : World) (address : String) (script : List (Endpoint × List StubAnswer)) : World :=
  let (w, index) := w.register address (.stub { script := script, seen := [] })
  { w with stubs := (address, index) :: w.stubs }

/-- What a stub was asked since this was last done. -/
def takeSeen (w : World) (address : String) : World × List (Endpoint × Json) :=
  match numberOf address w.stubs with
  | none => (w, [])
  | some index =>
    match w.stubAt? index with
    | some s => (w.putStub index { s with seen := [] }, s.seen)
    | none => (w, [])

/-- Take whoever is registered under an address off the network; `false` if nobody is. -/
def unregister (w : World) (address : String) : World × Bool :=
  ({ w with routes := w.routes.filter fun entry => entry.1 ≠ address },
    (numberOf address w.routes).isSome)

/-! ## Requests from outside -/

/-- Send a request over the network in the name of some address. -/
def request (w : World) (origin target : String) (endpoint : Endpoint) (body : Json) :
    World × Nat :=
  let (w, run) := w.newRun .request
  (w.send run (.client run) none origin target endpoint body none true, run)

/-- Hand a request to a node directly. -/
def handle (w : World) (index : Nat) (endpoint : Endpoint) (body : Json) : World × Nat :=
  let (w, run) := w.newRun .request
  let id := w.serial
  let call : Call :=
    { id := id
      run := run
      asker := .client run
      sender := none
      target := ""
      peer := index
      endpoint := endpoint
      body := body
      arrival := none
      deadline := none
      routed := false }
  ({ w with calls := w.calls ++ [call], serial := id + 1 }.next (.deliver id), run)

/-! ## Letting nodes run -/

/-- A number of protocol periods, one after the other. -/
def probe (w : World) (index : Nat) (periods : Nat) : World × Nat :=
  let (w, run) := w.newRun (.periods index periods [])
  if periods = 0 then (w.conclude run (.pinged []), run) else (w.next (.resume run), run)

/-- Begin to bootstrap a node. Unless it is told to gossip, it does not begin to probe. -/
def bootstrap (w : World) (index : Nat) (hosts : List String) (gossip : Bool) : World × Nat :=
  match w.nodeAt? index with
  | none => (w, w.serial)
  | some n =>
    match n.beginBootstrap w.moment with
    | .exhausted n =>
      let (w, run) := (w.putNode index n).newRun .request
      (w.conclude run .exhausted, run)
    | .done n (.error e) =>
      let (w, run) := w.newRun .request
      (w.endBootstrap run index n gossip (.error e), run)
    | .done n (.ok _) =>
      let w := w.putNode index n
      match n.beginJoin w.moment hosts with
      | none =>
        let (w, run) := w.newRun .request
        (w.completeBootstrap run index n gossip [], run)
      | some join =>
        let (w, run) := w.newRun (.bootstrap index join gossip)
        (w.beginRound { id := run, activity := .bootstrap index join gossip, wake := none } index n
          join gossip, run)

/-! ## Control -/

/-- Begin to probe. -/
def startGossip (w : World) (index : Nat) (n : Node) : World × Bool :=
  let (n, started) := n.startGossip
  let w := w.putNode index n
  (if started then w.beginLoop index else w, started)

/-- Stop probing. -/
def stopGossip (w : World) (index : Nat) (n : Node) : World × Bool :=
  let (n, stopped) := n.stopGossip
  ((w.putNode index n).endLoop index, stopped)

/-- Let a node leave. -/
def leave (w : World) (index : Nat) (n : Node) : Attempt World (Except NodeError Unit) :=
  match n.leave w.moment with
  | .exhausted n => .exhausted (w.putNode index n)
  | .done n outcome =>
    let w := w.putNode index n
    .done (if n.gossip = .stopped then w.endLoop index else w) outcome

/-- Let a node come back. Unless it is told to gossip, it does not go on probing. -/
def rejoin (w : World) (index : Nat) (n : Node) (gossip : Bool) :
    Attempt World (Except NodeError Unit) :=
  match n.rejoin w.moment with
  | .exhausted n => .exhausted (w.putNode index n)
  | .done after (.error e) => .done (w.putNode index after) (.error e)
  | .done after (.ok _) =>
    let w := w.putNode index after
    if gossip then
      let begins := after.gossip = .running ∧ n.gossip = .stopped
      .done (if begins then w.beginLoop index else w) (.ok ())
    else .done (w.stopGossip index after).1 (.ok ())

/-- Let a node reap its faulty members; the result lists them. -/
def reap (w : World) (index : Nat) (n : Node) : Attempt World (List String) :=
  (n.reap w.moment).mapState (w.putNode index)

/-- Change settings of a node. -/
def configure (w : World) (index : Nat) (n : Node) (patch : Json) :
    Except NodeError (World × Settings) :=
  (n.configure patch).map fun n => (w.putNode index n, n.settings)

/-- Stop a node for good. A bootstrap that pauses between two rounds is given up at once. -/
def destroy (w : World) (index : Nat) (n : Node) : World :=
  let w := (w.putNode index n.destroy).endLoop index
  (w.runs.filter fun r =>
    match r.activity with
    | .bootstrap node _ _ => node = index && r.wake.isSome
    | _ => false).foldl
      (fun w r => (w.putRun { r with wake := none }).later (.resume r.id)) w

/-- Stop a node for good and take it off the network. -/
def kill (w : World) (index : Nat) (n : Node) : World :=
  (w.unregister n.address).1.destroy index n

end GossipRing.World
