import GossipRing.Network.World
import GossipRing.Node.Bootstrap
import GossipRing.Node.Probe
import GossipRing.Node.Requests
import GossipRing.Wire.Message

/-!
# How things go on

What becomes of each errand. A step of a node is taken at one go; where a protocol waits, the
world keeps what it waits for, and the errand that ends the wait continues it.

* **`World.send`** — a request sets out. It may be lost at once, arrive at once or take its time.
* **`World.deliver`** — it is answered. A helper first pings the target.
* **`World.finish`** — the answer is back, and whoever waits for it goes on.
* **`World.perform`** — any errand.
-/

namespace GossipRing.World

open Network

/-! ## Requests set out -/

/-- Send a request over the network. It is handed over before anything else, or after all that is
going on has come to a wait. -/
def send (w : World) (run : Nat) (asker : Asker) (sender : Option Nat) (origin target : String)
    (endpoint : Endpoint) (body : Json) (timeout : Option Duration) (atOnce : Bool) : World :=
  let id := w.serial
  let call : Call :=
    { id := id
      run := run
      asker := asker
      sender := sender
      target := target
      peer := 0
      endpoint := endpoint
      body := body
      arrival := none
      deadline := timeout.map fun t => (w.time + t.ticks, t)
      routed := true }
  let queue := fun (w : World) (errand : Errand) => if atOnce then w.next errand else w.later errand
  let w := { w with serial := w.serial + 1 }
  match numberOf target w.routes with
  | none =>
    queue { w with calls := w.calls ++ [call] } (.finish id (.lost (.unreachable target)))
  | some peer =>
    let call := { call with peer := peer }
    let failure := w.failures.onLink origin target
    if failure.drops then
      queue { w with calls := w.calls ++ [call] } (.finish id (.lost (.dropped target)))
    else
      match failure.delay with
      | some delay => { w with calls := w.calls ++ [{ call with arrival := some (w.time + delay) }] }
      | none => queue { w with calls := w.calls ++ [call] } (.deliver id)

/-- A node pings a target. -/
def sendPing (w : World) (run : Nat) (asker : Asker) (index : Nat) (n : Node) (target : String) :
    World :=
  let (n, request) := n.composePing
  (w.putNode index n).send run asker (some index) n.address target .ping request.toJson
    (some n.settings.pingTimeout) true

/-! ## Requests are answered -/

/-- The reply that a node gives by an uninterrupted step, with the node put back. -/
def replyWith {α : Type} (w : World) (id index : Nat) (encode : α → Json)
    (outcome : Attempt Node (Except NodeError α)) : World :=
  match outcome with
  | .done n (.ok a) => (w.putNode index n).next (.finish id (.body (encode a)))
  | .done n (.error e) => (w.putNode index n).next (.finish id (.refused e))
  | .exhausted n => (w.putNode index n).next (.finish id .exhausted)

/-- A node answers a request, or sets out to. -/
def answer (w : World) (call : Call) (n : Node) : World :=
  let id := call.id
  let index := call.peer
  let refuse := w.next (.finish id (.refused .badBody))
  match call.endpoint with
  | .join =>
    match JoinRequest.ofJson? call.body with
    | some r => w.replyWith id index JoinResponse.toJson (n.answerJoin w.moment r)
    | none => refuse
  | .ping =>
    match PingRequest.ofJson? call.body with
    | some r => w.replyWith id index PingResponse.toJson ((n.answerPing w.moment r).map .ok)
    | none => refuse
  | .pingReq =>
    match PingReqRequest.ofJson? call.body with
    | some r =>
      match n.receivePingReq w.moment r with
      | .done n _ => w.sendPing call.run (.relay r id) index n r.target
      | .exhausted n => (w.putNode index n).next (.finish id .exhausted)
    | none => refuse

/-- Hand a request over. -/
def deliver (w : World) (id : Nat) : World :=
  match w.call? id with
  | none => w
  | some call =>
    match w.peers[call.peer]? with
    | some (.node n) => w.answer call n
    | some (.stub s) =>
      let (s, outcome) := s.handle call.endpoint call.body
      let w := w.putStub call.peer s
      match outcome with
      | .ok value => w.next (.finish id (.body value))
      | .error e => w.next (.finish id (.refused e))
    | none => w

/-! ## Protocol periods -/

/-- A protocol period is over, in which this member was probed. -/
def endPeriod (w : World) (id : Nat) (target : Option Member) : World :=
  match w.run? id with
  | none => w
  | some run =>
    match run.activity with
    | .periods node left pinged =>
      let pinged := pinged ++ [target]
      if left ≤ 1 then w.conclude id (.pinged pinged)
      else (w.putRun { run with activity := .periods node (left - 1) pinged }).next (.resume id)
    | .gossip node =>
      match w.nodeAt? node with
      | some n =>
        w.putRun { run with wake := some (w.time + n.settings.protocolPeriod.ticks) }
      | none => w
    | _ => w

/-- Begin a protocol period. -/
def beginPeriod (w : World) (id index : Nat) (n : Node) : World :=
  let (target, n, chance) := n.pickTarget w.chance
  let w := { w.putNode index n with chance := chance }
  match target with
  | none => w.endPeriod id none
  | some member => w.sendPing id (.probe id member) index n member.address

/-- Draw the consequence of a verdict and end the period. -/
def judge (w : World) (id index : Nat) (target : Member) (verdict : Verdict) : World :=
  match w.nodeAt? index with
  | none => w
  | some n =>
    match n.judge w.moment target verdict with
    | .done n _ => (w.putNode index n).endPeriod id (some target)
    | .exhausted n => (w.putNode index n).conclude id .exhausted

/-- The target did not answer: ask helpers. -/
def askHelpers (w : World) (id index : Nat) (n : Node) (target : Member) : World :=
  let (helpers, request, n, chance) := n.composePingReq target w.chance
  let w := { w.putNode index n with chance := chance }
  if helpers.isEmpty then w.judge id index target .noHelpers
  else
    let poll : Poll := { id := w.serial, run := id, node := index, target := target, reports := [] }
    let w := { w with polls := w.polls ++ [poll], serial := w.serial + 1 }
    helpers.foldl (fun w helper =>
      w.send id (.poll poll.id) (some index) n.address helper.address .pingReq request.toJson
        (some n.settings.pingReqTimeout) false) w

/-- See whether the reports suffice: one helper reached the target, or all have been heard. -/
def tally (w : World) (id : Nat) : World :=
  match w.poll? id with
  | none => w
  | some poll =>
    let verdict := Verdict.ofReports poll.reports
    if verdict = .reachable || !w.calls.any (isCallOf id) then
      (w.dropPoll id).judge poll.run poll.node poll.target verdict
    else w

/-! ## Joining -/

/-- A bootstrap is over. Unless it was told to gossip, the node does not. -/
def endBootstrap (w : World) (id index : Nat) (n : Node) (gossip : Bool)
    (outcome : Except NodeError (List String)) : World :=
  let w := w.putNode index n
  let w := w.conclude id (.joined outcome)
  if gossip then w else (w.putNode index n.stopGossip.1).endLoop index

/-- The join of a bootstrap has failed. -/
def failBootstrap (w : World) (id index : Nat) (n : Node) (gossip : Bool) (e : NodeError) : World :=
  w.endBootstrap id index n.failBootstrap gossip (.error e)

/-- The join of a bootstrap has succeeded. -/
def completeBootstrap (w : World) (id index : Nat) (n : Node) (gossip : Bool)
    (joined : List (String × Snapshot)) : World :=
  match n.completeBootstrap w.moment (joined.map Prod.snd) with
  | .exhausted n => (w.putNode index n).conclude id .exhausted
  | .done n _ =>
    let (n, started) := n.startGossip
    let w := if started then w.beginLoop index else w
    w.endBootstrap id index n gossip (.ok (joined.map Prod.fst))

/-- Ask the next host of the round, or pause at its end. -/
def askHost (w : World) (run : Run) (index : Nat) (n : Node) (join : Join) (gossip : Bool) :
    World :=
  match join.asking with
  | [] =>
    let (length, join, chance) := join.pause w.chance
    { w with chance := chance }.putRun
      { run with activity := .bootstrap index join gossip, wake := some (w.time + length) }
  | host :: _ =>
    if n.destroyed then w.failBootstrap run.id index n gossip .joinAborted
    else
      (w.putRun { run with activity := .bootstrap index join gossip }).send run.id
        (.join run.id host) (some index) n.address host .join join.request.toJson
        (some join.settings.joinTimeout) true

/-- Begin a round. -/
def beginRound (w : World) (run : Run) (index : Nat) (n : Node) (join : Join) (gossip : Bool) :
    World :=
  let (join, chance) := join.nextRound w.chance
  { w with chance := chance }.askHost run index n join gossip

/-- A host has answered, or has not. -/
def takeAnswer (w : World) (id : Nat) (host : String) (reply : Reply) : World :=
  match w.run? id with
  | none => w
  | some run =>
    match run.activity with
    | .bootstrap index join gossip =>
      match w.nodeAt? index with
      | none => w
      | some n =>
        if n.destroyed then w.failBootstrap id index n gossip .joinAborted
        else if join.isOverdue w.time then
          w.failBootstrap id index n gossip (.joinDurationExceeded join.settings.maxJoinDuration)
        else
          let answer :=
            match reply with
            | .body value => JoinResponse.ofJson? value
            | _ => none
          let join := join.take host answer
          if join.isComplete then w.completeBootstrap id index n gossip join.joined
          else w.askHost run index n join gossip
    | _ => w

/-! ## Answers are back -/

/-- What the sender of a request over the network gets to see of a reply. -/
def overNetwork (target : String) : Reply → Reply
  | .refused e => .lost (.remote target e.message)
  | other => other

/-- A probe has been answered, or has not. -/
def takePong (w : World) (id index : Nat) (target : Member) (reply : Reply) : World :=
  match w.nodeAt? index with
  | none => w
  | some n =>
    match reply with
    | .exhausted => w.conclude id .exhausted
    | .body value =>
      match PingResponse.ofJson? value with
      | none => w.askHelpers id index n target
      | some r =>
        match n.absorb w.moment r.changes with
        | .done n _ => (w.putNode index n).endPeriod id (some target)
        | .exhausted n => (w.putNode index n).conclude id .exhausted
    | _ => w.askHelpers id index n target

/-- A helper has reported, or has not. One that stopped halfway leaves no report at all. -/
def takeReport (w : World) (poll : Poll) (reply : Reply) : World :=
  let report := fun (w : World) (r : Option Bool) =>
    (w.putPoll { poll with reports := poll.reports ++ [r] }).later (.tally poll.id)
  match w.nodeAt? poll.node with
  | none => w
  | some n =>
    match reply with
    | .exhausted => w.later (.tally poll.id)
    | .body value =>
      match PingReqResponse.ofJson? value with
      | none => report w none
      | some r =>
        match n.absorb w.moment r.changes with
        | .done n _ => report (w.putNode poll.node n) (some r.status)
        | .exhausted n => (w.putNode poll.node n).later (.tally poll.id)
    | _ => report w none

/-- A helper's ping has been answered, or has not: it answers the request that made it ping. -/
def takeRelayed (w : World) (index : Nat) (request : PingReqRequest) (up : Nat) (reply : Reply) :
    World :=
  match w.nodeAt? index with
  | none => w
  | some n =>
    let respond := fun (w : World) (n : Node) (reached : Bool) =>
      let (n, response) := n.answerPingReq w.moment request reached
      (w.putNode index n).next (.finish up (.body response.toJson))
    match reply with
    | .exhausted => w.next (.finish up .exhausted)
    | .body value =>
      match PingResponse.ofJson? value with
      | none => respond w n false
      | some r =>
        match n.absorb w.moment r.changes with
        | .done n _ => respond w n true
        | .exhausted n => (w.putNode index n).next (.finish up .exhausted)
    | _ => respond w n false

/-- Bring an answer back to whoever waits for it. -/
def finish (w : World) (id : Nat) (reply : Reply) : World :=
  match w.call? id with
  | none => w
  | some call =>
    let w := w.dropCall id
    let reply := if call.routed then overNetwork call.target reply else reply
    match call.asker, call.sender with
    | .client run, _ =>
      match reply with
      | .exhausted => w.conclude run .exhausted
      | other => w.conclude run (.replied other)
    | .probe run target, some index => w.takePong run index target reply
    | .relay request up, some index => w.takeRelayed index request up reply
    | .join run host, _ =>
      match reply with
      | .exhausted => w.conclude run .exhausted
      | other => w.takeAnswer run host other
    | .poll poll, _ =>
      match w.poll? poll with
      | some poll => w.takeReport poll reply
      | none => w
    | _, none => w

/-! ## Errands -/

/-- A run goes on after a wait. -/
def resume (w : World) (id : Nat) : World :=
  match w.run? id with
  | none => w
  | some run =>
    match run.activity with
    | .periods index _ _ =>
      match w.nodeAt? index with
      | some n => w.beginPeriod id index n
      | none => w
    | .gossip index =>
      match w.nodeAt? index with
      | some n => if n.destroyed then w.dropRun id else w.beginPeriod id index n
      | none => w
    | .bootstrap index join gossip =>
      match w.nodeAt? index with
      | none => w
      | some n =>
        if n.destroyed then w.failBootstrap id index n gossip .joinAborted
        else if join.isOverdue w.time then
          w.failBootstrap id index n gossip (.joinDurationExceeded join.settings.maxJoinDuration)
        else w.beginRound run index n join gossip
    | .request => w

/-- An expiry reaches its node. -/
def expire (w : World) (index : Nat) (expiry : Expiry) : World :=
  match w.nodeAt? index with
  | some n => w.putNode index (n.expire w.moment expiry).state
  | none => w

/-- Run an errand. -/
def perform (w : World) : Errand → World
  | .deliver call => w.deliver call
  | .finish call reply => w.finish call reply
  | .resume run => w.resume run
  | .tally poll => w.tally poll
  | .expire node expiry => w.expire node expiry

end GossipRing.World
