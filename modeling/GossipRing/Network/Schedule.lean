import GossipRing.Network.Flow

/-!
# Virtual time

Errands are run until none is left; then time moves to the next moment at which something
happens. Of the things that happen at one moment, requests arrive first; then those who wait for
answers give up, the ones who began to wait last before those whose answer hangs on theirs; then
pauses end and suspicion timers run out.

* **`World.upcoming`** — what is going to happen and when, in that order.
* **`World.runUntil`** — everything up to a time. **`World.runFor`** — everything until some run
  has come to its end.
-/

namespace GossipRing

/-- What happens when its time has come. -/
inductive Network.Occurrence where
  | arrival (call : Nat)
  | timeout (call : Nat) (after : Duration)
  | wake (run : Nat)
  | runOut (node : Nat)

namespace World

open Network

/-- The nodes with their numbers. -/
def numberedNodes (w : World) : List (Nat × Node) :=
  (List.range w.peers.length).filterMap fun i => (w.nodeAt? i).map fun n => (i, n)

/-- What is going to happen and when, of one moment in the order of happening. -/
def upcoming (w : World) : List (Nat × Occurrence) :=
  w.calls.filterMap (fun c => c.arrival.map fun time => (time, Occurrence.arrival c.id)) ++
    w.calls.reverse.filterMap (fun c =>
      c.deadline.map fun (time, after) => (time, Occurrence.timeout c.id after)) ++
    w.runs.filterMap (fun r => r.wake.map fun time => (time, Occurrence.wake r.id)) ++
    w.numberedNodes.filterMap fun (i, n) =>
      n.suspicion.nextDue?.map fun time => (time, Occurrence.runOut i)

/-- The earliest of some occurrences, of equally early ones the first. -/
def earliest : List (Nat × Occurrence) → Option (Nat × Occurrence)
  | [] => none
  | first :: rest =>
    match earliest rest with
    | some other => if other.1 < first.1 then some other else some first
    | none => some first

/-- Let something happen, at the present moment. -/
def occur (w : World) : Occurrence → World
  | .arrival id =>
    match w.call? id with
    | some call => (w.putCall { call with arrival := none }).next (.deliver id)
    | none => w
  | .timeout id after =>
    match w.call? id with
    | some call => w.next (.finish id (.lost (.timeout call.target after)))
    | none => w
  | .wake id =>
    match w.run? id with
    | some run => (w.putRun { run with wake := none }).later (.resume id)
    | none => w
  | .runOut index =>
    match w.nodeAt? index with
    | some n =>
      let (n, expiries) := n.runOut w.moment
      expiries.foldl (fun w e => w.later (.expire index e)) (w.putNode index n)
    | none => w

/-- One thing is done or happens, unless nothing is to be done up to the given time. -/
def step? (w : World) (limit : Option Nat) : Option World :=
  match w.errands with
  | errand :: rest => some ({ w with errands := rest }.perform errand)
  | [] =>
    match earliest w.upcoming with
    | none => none
    | some (time, occurrence) =>
      if limit.all fun l => time ≤ l then some ({ w with time := max w.time time }.occur occurrence)
      else none

/-- How many things may be done before a run is given up; a bound that no session reaches. -/
def patience : Nat := 1000000000

/-- Everything that is done or happens up to the given time, `fuel` things at most. -/
def runUntilWith : Nat → Nat → World → World
  | 0, _, w => w
  | fuel + 1, limit, w =>
    match w.step? (some limit) with
    | some w => runUntilWith fuel limit w
    | none => w

/-- Everything that is done or happens until a run has come to its end, `fuel` things at most. -/
def runForWith : Nat → Nat → World → World
  | 0, _, w => w
  | fuel + 1, run, w =>
    match w.finding? run with
    | some _ => w
    | none =>
      match w.step? none with
      | some w => runForWith fuel run w
      | none => w

/-- Everything that is done or happens up to the given time. -/
def runUntil (w : World) (limit : Nat) : World := runUntilWith patience limit w

/-- Everything that can be done at the present moment. -/
def settle (w : World) : World := w.runUntil w.time

/-- Everything until a run has come to its end, and what came of it; `none` if nothing can end it. -/
def runFor (w : World) (run : Nat) : World × Option Finding :=
  let w := runForWith patience run w
  (w, w.finding? run)

/-- Let time pass. -/
def sleep (w : World) (millis : Nat) : World :=
  let wakeUp := w.time + millis
  { w.runUntil wakeUp with time := wakeUp }

end World

end GossipRing
