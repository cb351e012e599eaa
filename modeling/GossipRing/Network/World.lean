import GossipRing.Join
import GossipRing.Network.Failure
import GossipRing.Network.Peer

/-!
# Several nodes on one network

A world holds nodes and stubs, the requests on their way between them, and whatever is waiting:
for an answer, for its turn, or for a time to come. Time is virtual. It moves only when nothing is
left to do at the present moment.

* **`Run`** — something that goes on over several steps: a probing loop, a join, a client's
  request. It continues where its `Activity` says.
* **`Call`** — a request on its way or being answered. Its `Asker` says who waits for the answer.
* **`Poll`** — a node that has asked helpers and collects their reports.
* **`Errand`** — what is to be done next at the present moment.

Peers, runs, calls and polls are known by number, and keep it for good.
-/

namespace GossipRing.Network

/-- Who waits for the answer to a request. -/
inductive Asker where
  /-- The probe of a member in a protocol period. -/
  | probe (run : Nat) (target : Member)
  /-- A node that has asked helpers. -/
  | poll (poll : Nat)
  /-- A helper that pings a target because of a request to itself, which is the call `call`. -/
  | relay (request : PingReqRequest) (call : Nat)
  /-- A node that is joining. -/
  | join (run : Nat) (host : String)
  /-- Somebody outside. -/
  | client (run : Nat)

/-- A request on its way or being answered. -/
structure Call where
  id : Nat
  /-- The run that ends up waiting for the answer. -/
  run : Nat
  asker : Asker
  /-- The node that sent it, if a node did. -/
  sender : Option Nat
  target : String
  /-- Who was registered under the target's address when it was sent. -/
  peer : Nat
  endpoint : Endpoint
  body : Json
  /-- When it will arrive; `none` once it has. -/
  arrival : Option Nat
  /-- When the sender gives up, and how long it waits till then. -/
  deadline : Option (Nat × Duration)
  /-- Whether it travels over the network, where a refusal reaches the sender as a text. -/
  routed : Bool

/-- What comes back on a request. -/
inductive Reply where
  | body (value : Json)
  | refused (error : NodeError)
  | lost (error : TransportError)
  /-- The one that was asked stopped halfway, see `Attempt`. -/
  | exhausted

/-- A node that has asked helpers about a target. -/
structure Poll where
  id : Nat
  run : Nat
  node : Nat
  target : Member
  /-- The reports so far, `none` for a helper that did not answer. -/
  reports : List (Option Bool)

/-- Where a run continues. -/
inductive Activity where
  /-- A number of protocol periods, without pauses; `pinged` lists the members probed so far. -/
  | periods (node : Nat) (left : Nat) (pinged : List (Option Member))
  /-- Protocol periods for ever. -/
  | gossip (node : Nat)
  /-- A bootstrap, which begins to probe at the end if it is told to. -/
  | bootstrap (node : Nat) (join : Join) (gossip : Bool)
  /-- A single request from outside. -/
  | request

structure Run where
  id : Nat
  activity : Activity
  /-- When a pause ends. -/
  wake : Option Nat

/-- What came of a run. -/
inductive Finding where
  | pinged (members : List (Option Member))
  | replied (reply : Reply)
  | joined (outcome : Except NodeError (List String))
  /-- Some node stopped halfway, see `Attempt`. -/
  | exhausted

/-- What is to be done next. -/
inductive Errand where
  /-- Hand a request over to the one that is to answer it. -/
  | deliver (call : Nat)
  /-- Bring the answer back. -/
  | finish (call : Nat) (reply : Reply)
  | resume (run : Nat)
  /-- See whether the reports of helpers suffice. -/
  | tally (poll : Nat)
  | expire (node : Nat) (expiry : Expiry)

end Network

/-- Several nodes on one network. -/
structure World where
  /-- The virtual time, in milliseconds. -/
  time : Nat
  /-- The wall clock of all nodes. -/
  wall : UInt64
  peers : List Peer
  /-- The nodes by name. -/
  nodes : List (String × Nat)
  /-- The stubs by address. -/
  stubs : List (String × Nat)
  /-- Who is registered under an address. -/
  routes : List (String × Nat)
  failures : FailureMap Failure
  calls : List Network.Call
  polls : List Network.Poll
  runs : List Network.Run
  errands : List Network.Errand
  findings : List (Nat × Network.Finding)
  /-- The next number to give out. -/
  serial : Nat
  chance : Chance

namespace World

open Network

/-- A network without peers. -/
def empty (wall : UInt64) (chance : Chance) : World where
  time := 0
  wall := wall
  peers := []
  nodes := []
  stubs := []
  routes := []
  failures := .uniform .none
  calls := []
  polls := []
  runs := []
  errands := []
  findings := []
  serial := 0
  chance := chance

/-- The clocks as every node reads them. -/
def moment (w : World) : Moment := ⟨.still w.wall, w.time⟩

/-! ## Looking things up -/

/-- The last entry of a name comes first. -/
def numberOf (name : String) (entries : List (String × Nat)) : Option Nat :=
  (entries.find? fun entry => entry.1 = name).map Prod.snd

def nodeAt? (w : World) (index : Nat) : Option Node :=
  match w.peers[index]? with
  | some (.node n) => some n
  | _ => none

def stubAt? (w : World) (index : Nat) : Option Stub :=
  match w.peers[index]? with
  | some (.stub s) => some s
  | _ => none

/-- The number of the node with this name. -/
def nodeNumber? (w : World) (name : String) : Option Nat := numberOf name w.nodes

def call? (w : World) (id : Nat) : Option Call := w.calls.find? fun c => c.id = id

def poll? (w : World) (id : Nat) : Option Poll := w.polls.find? fun p => p.id = id

def run? (w : World) (id : Nat) : Option Run := w.runs.find? fun r => r.id = id

def finding? (w : World) (run : Nat) : Option Finding :=
  (w.findings.find? fun entry => entry.1 = run).map Prod.snd

/-! ## Small changes -/

def putNode (w : World) (index : Nat) (n : Node) : World :=
  { w with peers := w.peers.set index (.node n) }

def putStub (w : World) (index : Nat) (s : Stub) : World :=
  { w with peers := w.peers.set index (.stub s) }

/-- Do this before anything else: it continues what is going on. -/
def next (w : World) (errand : Errand) : World := { w with errands := errand :: w.errands }

/-- Do this when all that is going on has come to a wait. -/
def later (w : World) (errand : Errand) : World := { w with errands := w.errands ++ [errand] }

def putCall (w : World) (call : Call) : World :=
  { w with calls := w.calls.map fun c => if c.id = call.id then call else c }

def putPoll (w : World) (poll : Poll) : World :=
  { w with polls := w.polls.map fun p => if p.id = poll.id then poll else p }

def putRun (w : World) (run : Run) : World :=
  { w with runs := w.runs.map fun r => if r.id = run.id then run else r }

/-- The call is the ping of a helper because of the request `id`. -/
def isRelayOf (id : Nat) (c : Call) : Bool :=
  match c.asker with
  | .relay _ up => up = id
  | _ => false

/-- Forget a call, and the ping that a helper is making because of it. -/
def dropCall (w : World) (id : Nat) : World :=
  { w with calls := w.calls.filter fun c => c.id ≠ id && !isRelayOf id c }

/-- The call asks a helper for this poll. -/
def isCallOf (poll : Nat) (c : Call) : Bool :=
  match c.asker with
  | .poll p => p = poll
  | _ => false

/-- Forget a poll and the calls to its helpers. -/
def dropPoll (w : World) (id : Nat) : World :=
  let helpers := (w.calls.filter (isCallOf id)).map Call.id
  let w := helpers.foldl dropCall w
  { w with polls := w.polls.filter fun p => p.id ≠ id }

/-- Forget a run with all its calls and polls. -/
def dropRun (w : World) (id : Nat) : World :=
  { w with
    runs := w.runs.filter fun r => r.id ≠ id
    calls := w.calls.filter fun c => c.run ≠ id
    polls := w.polls.filter fun p => p.run ≠ id }

/-- A run is over. -/
def conclude (w : World) (run : Nat) (finding : Finding) : World :=
  let w := w.dropRun run
  { w with findings := (run, finding) :: w.findings }

/-- A new run, which has a number of its own. -/
def newRun (w : World) (activity : Activity) : World × Nat :=
  ({ w with
      runs := w.runs ++ [{ id := w.serial, activity := activity, wake := none }]
      serial := w.serial + 1 },
    w.serial)

/-- The run is the probing loop of this node. -/
def isLoopOf (node : Nat) (r : Run) : Bool :=
  match r.activity with
  | .gossip n => n = node
  | _ => false

/-- End the probing loop of a node. -/
def endLoop (w : World) (node : Nat) : World :=
  ((w.runs.filter (isLoopOf node)).map Run.id).foldl dropRun w

/-- Begin the probing loop of a node; it probes when all that is going on has come to a wait. -/
def beginLoop (w : World) (node : Nat) : World :=
  let (w, run) := w.newRun (.gossip node)
  w.later (.resume run)

end World

end GossipRing
