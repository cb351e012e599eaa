import GossipRing.Proofs.NodeSteps
import Mathlib.Logic.Function.Basic

/-!
# Everything that can happen to a node

Toward: what holds of a node whatever is done to it, by whom and in which order. Calls to bootstrap,
requests, answers, probes and timers go on side by side, and each holds the node's lock only for one
stretch at a time. Between two stretches anything else may happen.

* **`Move`** — a stretch that only the node itself has a part in.
* **`Process`** — a node with the calls to bootstrap that are under way, each at its `Stage`, and all
  expiries that its timers have sent. None is ever taken away, so one may be late, or come twice.
* **`Act`**, **`Process.run`** — a stretch of any kind, and any number of them in any order, each at
  its own reading of the clocks. A run stops where no incarnation is left.
* **`Heeds`**, **`Adjusts`** — a stretch takes claims in or holds them back, and adjusts the rest of the
  node (`adjusts_of_perform`); a quiet one only does the latter (`adjusts_of_quiet`).
  **`Aside`**, **`Rests`** — so it leaves the table alone beyond the claims, and every stretch but a
  return leaves the timers alone as well, or stops them all.
* **`Stops`** — where a stretch stops that is not completed (`stops_of_perform`): at the largest
  incarnation only.
* **`Process.Step`**, **`Process.run_induction`** — all that an act can do, and what is therefore kept
  by every run of a new node (`Process.Reached`). **`Process.Halts`** — where an act has stopped.
* **`Process.persist`** — acts one after the other, where the next one goes on even if one has stopped.
* **`Reached.table`** — the table of such a node is one that operations on tables produce.
-/

namespace GossipRing

/-! ## Stretches -/

/-- A stretch of a request, an answer, a probe or an order. A request to join was checked against the
    settings before, and a target was picked before: the node may have changed since. -/
inductive Move where
  | takeIn (source : String) (incarnation : UInt64)
  | answerPing (request : PingRequest)
  | receivePingReq (request : PingReqRequest)
  | answerPingReq (request : PingReqRequest) (reached : Bool)
  | pickTarget (chance : Chance)
  | composePing
  | composePingReq (target : Member) (chance : Chance)
  | absorb (changes : List Change)
  | judge (target : Member) (verdict : Verdict)
  | leave
  | rejoin
  | reap
  | configure (patch : Json)
  | setGossip (status : GossipStatus)
  /-- Destroy the node; its timers are stopped in a stretch of their own. -/
  | condemn
  | stopTimers

/-- What a stretch does to the node. -/
def Move.perform (now : Moment) (n : Node) : Move → Attempt Node Unit
  | takeIn source incarnation =>
    if source = n.address then .done n ()
    else (n.assert now source .alive incarnation).map fun _ => ()
  | answerPing request => (n.answerPing now request).map fun _ => ()
  | receivePingReq request => (n.receivePingReq now request).map fun _ => ()
  | answerPingReq request reached => .done (n.answerPingReq now request reached).1 ()
  | pickTarget chance => .done (n.pickTarget chance).2.1 ()
  | composePing => .done n.composePing.1 ()
  | composePingReq target chance => .done (n.composePingReq target chance).2.2.1 ()
  | absorb changes => (n.absorb now changes).map fun _ => ()
  | judge target verdict => (n.judge now target verdict).map fun _ => ()
  | leave => (n.leave now).map fun _ => ()
  | rejoin => (n.rejoin now).map fun _ => ()
  | reap => (n.reap now).map fun _ => ()
  | configure patch =>
    match n.configure patch with
    | .ok n' => .done n' ()
    | .error _ => .done n ()
  | setGossip status => .done { n with gossip := status } ()
  | condemn => .done { n with destroyed := true } ()
  | stopTimers => .done (if n.destroyed then { n with suspicion := n.suspicion.stopAll } else n) ()

/-- The stretch brings no claims to the node. -/
def Move.IsQuiet : Move → Prop
  | answerPingReq _ _ => True
  | pickTarget _ => True
  | composePing => True
  | composePingReq _ _ => True
  | configure _ => True
  | setGossip _ => True
  | condemn => True
  | stopTimers => True
  | _ => False

/-- Where a call to bootstrap stands. -/
inductive Stage where
  /-- It has not begun, or has failed. -/
  | outside
  /-- It has found that no other call is under way. -/
  | entered
  /-- The node has claimed that it is alive, and asks hosts to be taken in. -/
  | joining
  /-- It has succeeded. -/
  | joined
  deriving DecidableEq, Repr

/-- A node with what goes on around it. -/
structure Process where
  node : Node
  /-- The calls to bootstrap, by number. -/
  calls : ℕ → Stage
  /-- All expiries that timers have sent. -/
  sent : List Expiry

/-- What can happen next. -/
inductive Act where
  | move (move : Move)
  | enter (call : ℕ)
  | announce (call : ℕ)
  | fail (call : ℕ)
  | complete (call : ℕ) (snapshots : List Snapshot)
  | runOut
  | expire (expiry : Expiry)

namespace Process

/-- The process with another node. -/
def withNode (p : Process) (n : Node) : Process := { p with node := n }

/-- The process with a call at another stage. -/
def withStage (p : Process) (call : ℕ) (stage : Stage) : Process :=
  { p with calls := Function.update p.calls call stage }

theorem calls_withStage (p : Process) (call other : ℕ) (stage : Stage) :
    (p.withStage call stage).calls other = if other = call then stage else p.calls other :=
  Function.update_apply p.calls call stage other

/-- A call goes ahead, unless another one is under way or has succeeded. -/
def enter (p : Process) (call : ℕ) : Process :=
  (p.withNode { p.node with bootstrapped := true }).withStage call .entered

/-- The node claims that it is alive at a fresh incarnation. -/
def announce (p : Process) (now : Moment) (call : ℕ) : Attempt Process Unit :=
  match p.node.membership.freshIncarnation? now.wall with
  | none => .exhausted p
  | some inc =>
    ((p.node.assert now p.node.address .alive inc).map fun _ => ()).mapState fun n =>
      (p.withNode n).withStage call .joining

end Process

/-- What becomes of the process. Whatever cannot happen at this point leaves it as it is. -/
def Act.perform (now : Moment) (p : Process) : Act → Attempt Process Unit
  | move m => (m.perform now p.node).mapState p.withNode
  | enter call =>
    if p.calls call = .outside ∧ p.node.bootstrapped = false then .done (p.enter call) ()
    else .done p ()
  | announce call => if p.calls call = .entered then p.announce now call else .done p ()
  | fail call =>
    if p.calls call = .joining then
      .done ((p.withNode p.node.failBootstrap).withStage call .outside) ()
    else .done p ()
  | complete call snapshots =>
    if p.calls call = .joining then
      ((p.node.completeBootstrap now snapshots).map fun _ => ()).mapState fun n =>
        (p.withNode n).withStage call .joined
    else .done p ()
  | runOut =>
    .done { p with node := (p.node.runOut now).1, sent := p.sent ++ (p.node.runOut now).2 } ()
  | expire e =>
    if e ∈ p.sent then ((p.node.expire now e).map fun _ => ()).mapState p.withNode else .done p ()

namespace Process

/-- A node to which nothing has happened. -/
def start (n : Node) : Process where
  node := n
  calls _ := .outside
  sent := []

/-- One act after the other, each at its reading of the clocks. -/
def run (p : Process) : List (Moment × Act) → Attempt Process Unit
  | [] => .done p ()
  | (now, act) :: rest => (act.perform now p).andThen fun p _ => run p rest

/-- An announcement that goes through is the assertion of the local member's aliveness at a fresh
    incarnation, and the call goes on to join. -/
theorem announce_eq_done {p q : Process} {now : Moment} {call : ℕ}
    (h : p.announce now call = .done q ()) :
    ∃ inc effects n, p.node.assert now p.node.address .alive inc = .done n effects ∧
      q = (p.withNode n).withStage call .joining := by
  rw [announce] at h
  cases hfresh : p.node.membership.freshIncarnation? now.wall with
  | none =>
      rw [hfresh] at h
      cases h
  | some inc =>
      rw [hfresh] at h
      obtain ⟨n, hmap, rfl⟩ := Attempt.mapState_eq_done h
      obtain ⟨effects, hassert, -⟩ := Attempt.map_eq_done hmap
      exact ⟨inc, effects, n, hassert, rfl⟩

theorem run_append (p : Process) (first second : List (Moment × Act)) :
    p.run (first ++ second) = (p.run first).andThen fun p _ => p.run second := by
  induction first generalizing p with
  | nil => rfl
  | cons entry rest ih =>
      obtain ⟨now, act⟩ := entry
      rw [List.cons_append, run, run]
      cases act.perform now p with
      | exhausted q => rfl
      | done q out => exact ih q

/-- A process that some run of a new node leads to. -/
def Reached (p : Process) : Prop :=
  ∃ hash address settings chance n acts,
    Node.createWith hash address settings chance = .ok n ∧ (start n).run acts = .done p ()

end Process

/-! ## The operations of a node are runs -/

namespace Node

variable {now : Moment} {n n' : Node}

/-- To begin to bootstrap is to enter and to announce. -/
theorem beginBootstrap_eq_run (hdestroyed : n.destroyed = false) (hbegun : n.bootstrapped = false) :
    (n.beginBootstrap now).state =
      ((Process.start n).run [(now, .enter 0), (now, .announce 0)]).state.node := by
  have hentered : (Act.enter 0).perform now (Process.start n) =
      .done ((Process.start n).enter 0) () := by
    rw [Act.perform, if_pos ⟨rfl, hbegun⟩]
  have hannounced : (Act.announce 0).perform now ((Process.start n).enter 0) =
      ((Process.start n).enter 0).announce now 0 := by
    rw [Act.perform, if_pos]
    rw [Process.enter, Process.calls_withStage, if_pos rfl]
  rw [Process.run, hentered, Attempt.andThen_done, Process.run, hannounced, Process.announce,
    beginBootstrap, if_neg (ne_true_of_eq_false hdestroyed), if_neg (ne_true_of_eq_false hbegun)]
  have hnode : ((Process.start n).enter 0).node = { n with bootstrapped := true } := rfl
  rw [hnode]
  dsimp only
  cases n.membership.freshIncarnation? now.wall with
  | none => rfl
  | some inc =>
      dsimp only
      cases ({ n with bootstrapped := true } : Node).assert now n.address .alive inc <;> rfl

/-- A request to join that is not refused takes its sender in. -/
theorem answerJoin_eq_run {r : JoinRequest} (happ : r.app = n.settings.app)
    (hother : r.source ≠ n.address) :
    (n.answerJoin now r).state =
      ((Process.start n).run [(now, .move (.takeIn r.source r.incarnation))]).state.node := by
  have htaken : (Act.move (.takeIn r.source r.incarnation)).perform now (Process.start n) =
      ((n.assert now r.source .alive r.incarnation).map fun _ => ()).mapState
        (Process.start n).withNode :=
    congrArg (Attempt.mapState (Process.start n).withNode) (if_neg hother)
  rw [Process.run, htaken, answerJoin, if_neg (not_not_intro happ), if_neg hother]
  cases n.assert now r.source .alive r.incarnation <;> rfl

/-- To destroy a node is to condemn it, to stop probing and to stop its timers. -/
theorem destroy_eq_run (hdestroyed : n.destroyed = false) :
    n.destroy = ((Process.start n).run [(now, .move .condemn), (now, .move (.setGossip .stopped)),
      (now, .move .stopTimers)]).state.node := by
  rw [destroy, hdestroyed]
  rfl

end Node

/-! ## What a stretch does -/

/-- The operation holds claims back where the gate is closed, and does not open it. -/
def Membership.Op.RespectsGate : Membership.Op → Prop
  | update _ localAlive => localAlive = false
  | assert _ _ _ => True
  | adopt _ => False
  | openGate => False

namespace Node

/-- The table is left alone, and the timers but for some that are gone or have run out. -/
structure Aside (n n' : Node) : Prop where
  address : n'.address = n.address
  membership : n'.membership = n.membership
  here : n'.suspicion.here = n.suspicion.here
  generation : n'.suspicion.generation = n.suspicion.generation
  timers : ∀ t ∈ n'.suspicion.timers, ∃ u ∈ n.suspicion.timers, u.expiry = t.expiry
  disabled : n'.suspicion.disabled → n.suspicion.disabled ∨ n'.suspicion.timers = []

/-- Claims were taken in or held back, or nothing was done. -/
def Heeds (now : Moment) (n n' : Node) : Prop :=
  n' = n ∨ ∃ (op : Membership.Op) (effects : List Change), op.RespectsGate ∧
    n.settle now (op.apply now.wall n.membership) = .done n' effects

/-- What a stretch does to a node besides taking claims in. -/
inductive Adjusts (n : Node) : Move → Node → Prop
  | none {move : Move} : Adjusts n move n
  | handOut {move : Move} : Adjusts n move { n with piggyback := n.piggyback.issue.1 }
  | rotate {move : Move} (rotation : Rotation) : Adjusts n move { n with rotation := rotation }
  | configure {patch : Json} {n' : Node} (h : n.configure patch = .ok n') :
      Adjusts n (.configure patch) n'
  | leave : Adjusts n .leave { n with suspicion := n.suspicion.stopAll, gossip := .stopped }
  | rejoin : Adjusts n .rejoin { n with suspicion := n.suspicion.reenable }.startGossip.1
  | setGossip (status : GossipStatus) : Adjusts n (.setGossip status) { n with gossip := status }
  | condemn : Adjusts n .condemn { n with destroyed := true }
  | stopTimers : Adjusts n .stopTimers { n with suspicion := n.suspicion.stopAll }

variable {now : Moment} {n n' n₁ : Node} {effects changes : List Change}

namespace Aside

/-- A step that leaves the timers alone, too. -/
theorem of_eq (haddress : n'.address = n.address) (htable : n'.membership = n.membership)
    (hsuspicion : n'.suspicion = n.suspicion) : Aside n n' where
  address := haddress
  membership := htable
  here := by rw [hsuspicion]
  generation := by rw [hsuspicion]
  timers t ht := ⟨t, hsuspicion ▸ ht, rfl⟩
  disabled h := Or.inl (hsuspicion ▸ h)

theorem refl (n : Node) : Aside n n := of_eq rfl rfl rfl

/-- All timers are stopped. -/
theorem stopAll (n : Node) : Aside n { n with suspicion := n.suspicion.stopAll } where
  address := rfl
  membership := rfl
  here := rfl
  generation := rfl
  timers _ ht := absurd ht List.not_mem_nil
  disabled _ := Or.inr rfl

/-- Timers run out. -/
theorem runOut (n : Node) (now : Moment) : Aside n (n.runOut now).1 where
  address := rfl
  membership := rfl
  here := rfl
  generation := rfl
  timers t ht := by
    obtain ⟨u, hu, rfl⟩ := List.mem_map.mp ht
    refine ⟨u, hu, ?_⟩
    split <;> rfl
  disabled := Or.inl

/-- An expiry is claimed. -/
theorem claim (n : Node) (e : Expiry) :
    Aside n { n with suspicion := (n.suspicion.claim e).1 } := by
  rw [Suspicion.claim]
  split
  · exact
      { address := rfl
        membership := rfl
        here := rfl
        generation := rfl
        timers := fun t ht => ⟨t, Suspicion.mem_stop ht, rfl⟩
        disabled := Or.inl }
  · exact of_eq rfl rfl rfl

end Aside

/-- The table is left alone, and the timers are as they were or are all stopped. -/
structure Rests (n n' : Node) : Prop where
  address : n'.address = n.address
  membership : n'.membership = n.membership
  suspicion : n'.suspicion = n.suspicion.stopAll ∨
    ∃ timeout, n'.suspicion = { n.suspicion with timeout := timeout }

namespace Rests

/-- A step that leaves the timers alone, too. -/
theorem of_eq (haddress : n'.address = n.address) (htable : n'.membership = n.membership)
    (hsuspicion : n'.suspicion = n.suspicion) : Rests n n' :=
  ⟨haddress, htable, Or.inr ⟨n.suspicion.timeout, hsuspicion⟩⟩

/-- A node that rests has its table as before, and its timers can only have become fewer. -/
theorem aside (h : Rests n n') : Aside n n' := by
  rcases h.suspicion with hstopped | ⟨timeout, hsame⟩
  · have hnone := Aside.stopAll n
    rw [← hstopped] at hnone
    exact ⟨h.address, h.membership, hnone.here, hnone.generation, hnone.timers, hnone.disabled⟩
  · refine ⟨h.address, h.membership, ?_, ?_, ?_, ?_⟩
    all_goals rw [hsame]
    · exact fun t ht => ⟨t, ht, rfl⟩
    · exact Or.inl

end Rests

/-- A new node has an empty table and no timers. -/
theorem createWith_eq {hash : HashFunction} {address : String} {settings : Settings}
    {chance : Chance} (h : createWith hash address settings chance = .ok n) :
    n.address = address ∧ n.membership = .empty address hash chance ∧
      n.suspicion = .empty address settings.suspicionTimeout := by
  obtain ⟨-, rfl⟩ := createWith_eq_ok h
  exact ⟨rfl, rfl, rfl⟩

theorem heeds_of_update (h : n.update now changes = .done n' effects) : Heeds now n n' :=
  Or.inr ⟨.update changes false, effects, rfl, h⟩

theorem heeds_of_assert {address : String} {status : Status} {inc : UInt64}
    (h : n.assert now address status inc = .done n' effects) : Heeds now n n' :=
  Or.inr ⟨.assert address status inc, effects, trivial, h⟩

theorem bootstrapped_settle {outcome : Attempt Membership (List Change)}
    (h : n.settle now outcome = .done n' effects) : n'.bootstrapped = n.bootstrapped := by
  obtain ⟨m, -, rfl⟩ := settle_eq_done h
  exact bootstrapped_spread _ _ _

theorem address_settle {outcome : Attempt Membership (List Change)}
    (h : n.settle now outcome = .done n' effects) : n'.address = n.address := by
  obtain ⟨m, -, rfl⟩ := settle_eq_done h
  exact address_spread _ _ _

theorem Heeds.bootstrapped (h : Heeds now n n') : n'.bootstrapped = n.bootstrapped := by
  rcases h with rfl | ⟨op, effects, -, hsettle⟩
  · rfl
  · exact bootstrapped_settle hsettle

/-- A verdict is heeded by one assertion at most. -/
theorem heeds_of_judge {target : Member} {verdict : Verdict}
    (h : n.judge now target verdict = .done n' effects) : Heeds now n n' := by
  cases verdict with
  | reachable => exact heeds_of_assert h
  | unreachable => exact heeds_of_assert h
  | noHelpers => exact heeds_of_assert h
  | inconclusive => exact Or.inl (Attempt.done.inj h).1.symm

namespace Adjusts

variable {move : Move}

/-- What a move adjusts beside the claims is idle: rows, ring and gate stay, and no timer is started.
    -/
theorem idles (h : n.Adjusts move n') : n.Idles n' := by
  cases h with
  | none => exact .refl n
  | handOut => exact .issue n
  | rotate rotation => exact .of_fewer_timers rfl rfl id rfl (List.Subset.refl _)
  | configure hconfigure => exact .configure hconfigure
  | leave => exact .halt n
  | rejoin =>
      rw [startGossip]
      split
      all_goals exact .of_fewer_timers rfl rfl id rfl (List.Subset.refl _)
  | setGossip status => exact .of_fewer_timers rfl rfl id rfl (List.Subset.refl _)
  | condemn => exact .of_fewer_timers rfl rfl id rfl (List.Subset.refl _)
  | stopTimers => exact .of_fewer_timers rfl rfl id rfl (List.nil_subset _)

/-- No adjustment begins or ends a bootstrap. -/
theorem bootstrapped (h : n.Adjusts move n') : n'.bootstrapped = n.bootstrapped := by
  cases h with
  | configure hconfigure =>
      obtain ⟨merged, -, rfl⟩ := configure_eq_ok hconfigure
      rfl
  | rejoin =>
      rw [startGossip]
      split <;> rfl
  | _ => rfl

/-- Only a return allows timers again. -/
theorem rests (h : n.Adjusts move n') (hmove : move ≠ .rejoin) : Rests n n' := by
  cases h with
  | configure hconfigure =>
      obtain ⟨merged, -, rfl⟩ := configure_eq_ok hconfigure
      exact ⟨rfl, rfl, Or.inr ⟨merged.suspicionTimeout, rfl⟩⟩
  | leave => exact ⟨rfl, rfl, Or.inl rfl⟩
  | stopTimers => exact ⟨rfl, rfl, Or.inl rfl⟩
  | rejoin => exact absurd rfl hmove
  | _ => exact .of_eq rfl rfl rfl

/-- Every adjustment leaves the table alone. Rejoining is the only one that may switch suspicion on
    again. -/
theorem aside (h : n.Adjusts move n') : Aside n n' := by
  by_cases hmove : move = .rejoin
  · cases h with
    | rejoin =>
        rw [startGossip]
        split
        all_goals
          refine ⟨rfl, rfl, rfl, rfl, fun t ht => ⟨t, ht, rfl⟩, fun hoff => ?_⟩
          exact absurd hoff Bool.false_ne_true
    | none => exact .refl n
    | handOut => exact .of_eq rfl rfl rfl
    | rotate rotation => exact .of_eq rfl rfl rfl
    | _ => cases hmove
  · exact (h.rests hmove).aside

end Adjusts

/-- **A stretch that is quiet** only adjusts the node. -/
theorem adjusts_of_quiet {move : Move} (hquiet : move.IsQuiet) (h : move.perform now n = .done n' ()) :
    n.Adjusts move n' := by
  cases move with
  | answerPingReq request reached =>
      obtain ⟨rfl, -⟩ := Attempt.done.inj h
      show n.Adjusts _ (n.answerWith now request.checksum).1
      rw [answerWith_fst]
      exact .handOut
  | pickTarget chance =>
      obtain ⟨rfl, -⟩ := Attempt.done.inj h
      exact .rotate _
  | composePing =>
      obtain ⟨rfl, -⟩ := Attempt.done.inj h
      exact .handOut
  | composePingReq target chance =>
      obtain ⟨rfl, -⟩ := Attempt.done.inj h
      exact .handOut
  | configure patch =>
      rw [Move.perform] at h
      cases hconfigure : n.configure patch with
      | error e =>
          rw [hconfigure] at h
          obtain ⟨rfl, -⟩ := Attempt.done.inj h
          exact .none
      | ok n₁ =>
          rw [hconfigure] at h
          obtain ⟨rfl, -⟩ := Attempt.done.inj h
          exact .configure hconfigure
  | setGossip status =>
      obtain ⟨rfl, -⟩ := Attempt.done.inj h
      exact .setGossip status
  | condemn =>
      obtain ⟨rfl, -⟩ := Attempt.done.inj h
      exact .condemn
  | stopTimers =>
      obtain ⟨rfl, -⟩ := Attempt.done.inj h
      split
      · exact .stopTimers
      · exact .none
  | _ => exact False.elim hquiet

/-- **A stretch takes claims in or holds them back, and adjusts the rest of the node.** -/
theorem adjusts_of_perform {move : Move} (h : move.perform now n = .done n' ()) :
    ∃ n₁, Heeds now n n₁ ∧ n₁.Adjusts move n' := by
  have hidle : n = n' → ∃ n₁, Heeds now n n₁ ∧ n₁.Adjusts move n' := by
    rintro rfl
    exact ⟨n, Or.inl rfl, .none⟩
  have hheeds : Heeds now n n' → ∃ n₁, Heeds now n n₁ ∧ n₁.Adjusts move n' :=
    fun hn => ⟨n', hn, .none⟩
  by_cases hquiet : move.IsQuiet
  · exact ⟨n, Or.inl rfl, adjusts_of_quiet hquiet h⟩
  -- a move that brings claims heeds them first, and then adjusts what depends on the move alone
  cases move with
  | takeIn source inc =>
      rw [Move.perform] at h
      split at h
      · exact hidle (Attempt.done.inj h).1
      · obtain ⟨effects, hassert, -⟩ := Attempt.map_eq_done h
        exact hheeds (heeds_of_assert hassert)
  | answerPing request =>
      obtain ⟨response, hanswer, -⟩ := Attempt.map_eq_done h
      obtain ⟨n₁, effects, hupdate, rfl, -⟩ := answerPing_eq_done hanswer
      refine ⟨n₁, heeds_of_update hupdate, ?_⟩
      rw [answerWith_fst]
      exact .handOut
  | receivePingReq request =>
      obtain ⟨effects, hupdate, -⟩ := Attempt.map_eq_done h
      exact hheeds (heeds_of_update hupdate)
  | absorb changes =>
      obtain ⟨effects, habsorb, -⟩ := Attempt.map_eq_done h
      rw [absorb] at habsorb
      split at habsorb
      · exact hidle (Attempt.done.inj habsorb).1
      · exact hheeds (heeds_of_update habsorb)
  | judge target verdict =>
      obtain ⟨effects, hjudge, -⟩ := Attempt.map_eq_done h
      exact hheeds (heeds_of_judge hjudge)
  | leave =>
      obtain ⟨outcome, hleave, -⟩ := Attempt.map_eq_done h
      rcases n.leave_cases now with ⟨e, hrefused⟩ | ⟨row, -, hdeparts⟩
      · exact hidle (Attempt.done.inj (hrefused.symm.trans hleave)).1
      · obtain ⟨n₁, effects, hassert, hlast⟩ := Attempt.andThen_eq_done (hdeparts.symm.trans hleave)
        obtain ⟨rfl, -⟩ := Attempt.done.inj hlast
        exact ⟨n₁, heeds_of_assert hassert, .leave⟩
  | rejoin =>
      obtain ⟨outcome, hrejoin, -⟩ := Attempt.map_eq_done h
      rcases n.rejoin_cases now with ⟨e, hrefused⟩ | ⟨-, hstop⟩ | ⟨row, inc, -, hreturns⟩
      · exact hidle (Attempt.done.inj (hrefused.symm.trans hrejoin)).1
      · cases hstop.symm.trans hrejoin
      · obtain ⟨n₁, effects, hassert, hlast⟩ := Attempt.andThen_eq_done (hreturns.symm.trans hrejoin)
        obtain ⟨rfl, -⟩ := Attempt.done.inj hlast
        exact ⟨n₁, heeds_of_assert hassert, .rejoin⟩
  | reap =>
      obtain ⟨reaped, hreap, -⟩ := Attempt.map_eq_done h
      obtain ⟨effects, hupdate, -⟩ := Attempt.map_eq_done hreap
      exact hheeds (heeds_of_update hupdate)
  | _ => exact absurd trivial hquiet

/-- Beyond the claims a stretch leaves the table alone, and the timers as well or stops them all, unless
    it is a return. -/
theorem perform_rests {move : Move} (hmove : move ≠ .rejoin) (h : move.perform now n = .done n' ()) :
    ∃ n₁, Heeds now n n₁ ∧ Rests n₁ n' ∧ n'.bootstrapped = n₁.bootstrapped := by
  obtain ⟨n₁, hheeds, hadjusts⟩ := adjusts_of_perform h
  exact ⟨n₁, hheeds, hadjusts.rests hmove, hadjusts.bootstrapped⟩

/-- Every stretch, a return among them, heeds claims and then lies aside. -/
theorem perform_cases {move : Move} (h : move.perform now n = .done n' ()) :
    ∃ n₁, Heeds now n n₁ ∧ Aside n₁ n' ∧ n'.bootstrapped = n₁.bootstrapped := by
  obtain ⟨n₁, hheeds, hadjusts⟩ := adjusts_of_perform h
  exact ⟨n₁, hheeds, hadjusts.aside, hadjusts.bootstrapped⟩

/-! ## Where a stretch stops -/

/-- The node is at the largest incarnation. -/
def Spent (n : Node) : Prop := n.membership.localIncarnation = Membership.lastIncarnation

/-- An operation on the table has stopped, or no incarnation was left to claim. -/
inductive Stops (now : Moment) (n : Node) : Node → Prop
  | fresh (h : n.membership.freshIncarnation? now.wall = none) : Stops now n n
  | settle (op : Membership.Op) {n' : Node} (hop : op.RespectsGate)
      (h : n.settle now (op.apply now.wall n.membership) = .exhausted n') : Stops now n n'

/-- When the settling of an operation stops, the local row carries the last incarnation. -/
theorem spent_of_settle (op : Membership.Op)
    (h : n.settle now (op.apply now.wall n.membership) = .exhausted n') : n'.Spent := by
  rcases settle_cases (op.reported now.wall n.membership) with
    ⟨m, effects, -, hdone⟩ | ⟨m, hlast, hstop⟩
  · cases hdone.symm.trans h
  · obtain rfl := Attempt.exhausted.inj (hstop.symm.trans h)
    exact hlast

/-- Whatever stops a node, the local row carries the last incarnation then. -/
theorem Stops.spent (h : Stops now n n') : n'.Spent := by
  cases h with
  | fresh hfresh => exact Membership.localIncarnation_of_freshIncarnation? hfresh
  | settle op _ hsettle => exact spent_of_settle op hsettle

theorem stops_of_update (h : n.update now changes = .exhausted n') : Stops now n n' :=
  .settle (.update changes false) rfl h

theorem stops_of_assert {address : String} {status : Status} {inc : UInt64}
    (h : n.assert now address status inc = .exhausted n') : Stops now n n' :=
  .settle (.assert address status inc) trivial h

/-- **A stretch stops in an operation on the table**, or where it needs a fresh incarnation. -/
theorem stops_of_perform {move : Move} (h : move.perform now n = .exhausted n') : Stops now n n' := by
  cases move with
  | takeIn source inc =>
      rw [Move.perform] at h
      split at h
      · cases h
      · exact stops_of_assert (Attempt.map_eq_exhausted h)
  | answerPing request =>
      rcases Attempt.andThen_eq_exhausted (Attempt.map_eq_exhausted h) with
        hupdate | ⟨n₁, effects, -, hlast⟩
      · exact stops_of_update hupdate
      · cases hlast
  | receivePingReq request => exact stops_of_update (Attempt.map_eq_exhausted h)
  | absorb changes =>
      have habsorb := Attempt.map_eq_exhausted h
      rw [absorb] at habsorb
      split at habsorb
      · cases habsorb
      · exact stops_of_update habsorb
  | judge target verdict =>
      have hjudge := Attempt.map_eq_exhausted h
      cases verdict with
      | reachable => exact stops_of_assert hjudge
      | unreachable => exact stops_of_assert hjudge
      | noHelpers => exact stops_of_assert hjudge
      | inconclusive => cases hjudge
  | leave =>
      have hleave := Attempt.map_eq_exhausted h
      rcases n.leave_cases now with ⟨e, hrefused⟩ | ⟨row, -, hdeparts⟩
      · cases hrefused.symm.trans hleave
      · rcases Attempt.andThen_eq_exhausted (hdeparts.symm.trans hleave) with
          hassert | ⟨n₁, effects, -, hlast⟩
        · exact stops_of_assert hassert
        · cases hlast
  | rejoin =>
      have hrejoin := Attempt.map_eq_exhausted h
      rcases n.rejoin_cases now with ⟨e, hrefused⟩ | ⟨hfresh, hstop⟩ | ⟨row, inc, -, hreturns⟩
      · cases hrefused.symm.trans hrejoin
      · obtain rfl := Attempt.exhausted.inj (hstop.symm.trans hrejoin)
        exact .fresh hfresh
      · rcases Attempt.andThen_eq_exhausted (hreturns.symm.trans hrejoin) with
          hassert | ⟨n₁, effects, -, hlast⟩
        · exact stops_of_assert hassert
        · cases hlast
  | reap => exact stops_of_update (Attempt.map_eq_exhausted (Attempt.map_eq_exhausted h))
  | configure patch =>
      rw [Move.perform] at h
      split at h <;> cases h
  | answerPingReq request reached => cases h
  | pickTarget chance => cases h
  | composePing => cases h
  | composePingReq target chance => cases h
  | setGossip status => cases h
  | condemn => cases h
  | stopTimers => cases h

end Node

/-! ## Every run -/

namespace Process

variable {now : Moment} {p q : Process} {act : Act} {acts : List (Moment × Act)}

/-- What an act that is completed has done. -/
inductive Step (now : Moment) (p : Process) : Process → Prop
  /-- It could not happen, or an expiry was late. -/
  | idle : Step now p p
  | move {move : Move} {n : Node} (h : move.perform now p.node = .done n ()) :
      Step now p (p.withNode n)
  | enter {call : ℕ} (hflag : p.node.bootstrapped = false) : Step now p (p.enter call)
  | announce {call : ℕ} {inc : UInt64} {n : Node} {effects : List Change}
      (hentered : p.calls call = .entered)
      (h : p.node.assert now p.node.address .alive inc = .done n effects) :
      Step now p ((p.withNode n).withStage call .joining)
  | fail {call : ℕ} (hjoining : p.calls call = .joining) :
      Step now p ((p.withNode p.node.failBootstrap).withStage call .outside)
  | complete {call : ℕ} {snapshots : List Snapshot} {n : Node} {effects : List Change}
      (hjoining : p.calls call = .joining)
      (h : p.node.completeBootstrap now snapshots = .done n effects) :
      Step now p ((p.withNode n).withStage call .joined)
  | runOut : Step now p
      { p with node := (p.node.runOut now).1, sent := p.sent ++ (p.node.runOut now).2 }
  | expire {e : Expiry} {n : Node} {effects : List Change} (hsent : e ∈ p.sent)
      (hcounts : (p.node.suspicion.claim e).2 = true)
      (h : ({ p.node with suspicion := (p.node.suspicion.claim e).1 } : Node).assert now e.address
        .faulty e.incarnation = .done n effects) : Step now p (p.withNode n)

/-- **Acts do nothing else.** -/
theorem step_of_perform (h : act.perform now p = .done q ()) : Step now p q := by
  have hidle : q = p → Step now p q := by
    rintro rfl
    exact .idle
  -- an act that finds its call at another stage does nothing, which is the idle step
  cases act with
  | move move =>
      obtain ⟨n, hperform, rfl⟩ := Attempt.mapState_eq_done h
      exact .move hperform
  | enter call =>
      rw [Act.perform] at h
      split at h
      · next hentered =>
        obtain ⟨rfl, -⟩ := Attempt.done.inj h
        exact .enter hentered.2
      · exact hidle (Attempt.done.inj h).1.symm
  | announce call =>
      rw [Act.perform] at h
      split at h
      · next hentered =>
        obtain ⟨inc, effects, n, hassert, rfl⟩ := announce_eq_done h
        exact .announce hentered hassert
      · exact hidle (Attempt.done.inj h).1.symm
  | fail call =>
      rw [Act.perform] at h
      split at h
      · next hjoining =>
        obtain ⟨rfl, -⟩ := Attempt.done.inj h
        exact .fail hjoining
      · exact hidle (Attempt.done.inj h).1.symm
  | complete call snapshots =>
      rw [Act.perform] at h
      split at h
      · next hjoining =>
        obtain ⟨n, hmap, rfl⟩ := Attempt.mapState_eq_done h
        obtain ⟨effects, hcomplete, -⟩ := Attempt.map_eq_done hmap
        exact .complete hjoining hcomplete
      · exact hidle (Attempt.done.inj h).1.symm
  | runOut =>
      obtain ⟨rfl, -⟩ := Attempt.done.inj h
      exact .runOut
  | expire e =>
      rw [Act.perform] at h
      split at h
      · next hsent =>
        obtain ⟨n, hmap, rfl⟩ := Attempt.mapState_eq_done h
        obtain ⟨effects, hexpire, -⟩ := Attempt.map_eq_done hmap
        rw [Node.expire] at hexpire
        dsimp only at hexpire
        split at hexpire
        · next hcounts => exact .expire hsent hcounts hexpire
        · obtain ⟨rfl, -⟩ := Attempt.done.inj hexpire
          exact .idle
      · exact hidle (Attempt.done.inj h).1.symm

section

/- A property of a node and of the expiries that it has sent, which operations on the table keep, and
   steps that leave it alone. Every expiry that is sent comes from a timer. -/
variable {P : List Expiry → Node → Prop}
  (haside : ∀ {sent : List Expiry} {n n' : Node}, P sent n → Node.Aside n n' → P sent n')
  (hsettle : ∀ {sent : List Expiry} {now : Moment} (op : Membership.Op) {n n' : Node}
    {effects : List Change}, P sent n →
    n.settle now (op.apply now.wall n.membership) = .done n' effects → P sent n')
  (hsend : ∀ {sent more : List Expiry} {n : Node}, P sent n →
    (∀ e ∈ more, ∃ t ∈ n.suspicion.timers, t.expiry = e) → P (sent ++ more) n)

include haside hsettle hsend

/-- **Such a property is kept by every step.** -/
theorem step_induction (hp : P p.sent p.node) (h : Step now p q) : P q.sent q.node := by
  cases h with
  | idle => exact hp
  | move hperform =>
      obtain ⟨n₁, hheeds, haside', -⟩ := Node.perform_cases hperform
      rcases hheeds with rfl | ⟨op, effects, -, hop⟩
      · exact haside hp haside'
      · exact haside (hsettle op hp hop) haside'
  | enter => exact haside hp (.of_eq rfl rfl rfl)
  | announce _ hassert => exact hsettle (.assert p.node.address .alive _) hp hassert
  | fail => exact haside hp (.of_eq rfl rfl rfl)
  | @complete _ snapshots _ _ _ hcomplete =>
      -- completing is two operations, the adoption and the opening of the gate
      have hadopt := p.node.settle_adopt now snapshots
      exact hsettle .openGate (hsettle (.adopt snapshots) hp hadopt) hcomplete
  | runOut =>
      refine haside (hsend hp fun e he => ?_) (.runOut p.node now)
      obtain ⟨t, ht, rfl⟩ := List.mem_map.mp he
      exact ⟨t, (List.mem_filter.mp (List.mem_mergeSort.mp ht)).1, rfl⟩
  | @expire e _ _ _ _ hassert =>
      exact hsettle (.assert e.address .faulty e.incarnation) (haside hp (.claim p.node e)) hassert

/-- **So it is by every run.** -/
theorem run_induction (hp : P p.sent p.node) (hrun : p.run acts = .done q ()) : P q.sent q.node := by
  induction acts generalizing p with
  | nil =>
      obtain ⟨rfl, -⟩ := Attempt.done.inj hrun
      exact hp
  | cons entry rest ih =>
      obtain ⟨now, act⟩ := entry
      rw [run] at hrun
      obtain ⟨p₁, out, hact, hrest⟩ := Attempt.andThen_eq_done hrun
      exact ih (step_induction haside hsettle hsend hp (step_of_perform hact)) hrest

end

/-- What goes on after a run goes on from a new node. -/
theorem Reached.run (hp : p.Reached) (hrun : p.run acts = .done q ()) : q.Reached := by
  obtain ⟨hash, address, settings, chance, n, before, hnode, hbefore⟩ := hp
  refine ⟨hash, address, settings, chance, n, before ++ acts, hnode, ?_⟩
  rw [run_append, hbefore, Attempt.andThen_done]
  exact hrun

/-- **The table of a node is one that operations on tables produce.** -/
theorem Reached.table (hp : p.Reached) : p.node.membership.Reached := by
  obtain ⟨hash, address, settings, chance, n, acts, hnode, hrun⟩ := hp
  have hstart : n.membership.Reached := by
    rw [(Node.createWith_eq hnode).2.1]
    exact ⟨address, hash, chance, [], rfl⟩
  refine run_induction (P := fun _ n => n.membership.Reached) ?_ ?_ ?_ hstart hrun
  · intro sent n n' hn haside
    rw [haside.membership]
    exact hn
  · intro sent now op n n' effects hn hsettle
    obtain ⟨m, happly, rfl⟩ := Node.settle_eq_done hsettle
    rw [Node.membership_spread]
    exact hn.apply happly
  · exact fun hn _ => hn

/-- A node knows itself under one address, and has one hash function. -/
theorem here_hash_run (hrun : p.run acts = .done q ()) :
    q.node.membership.here = p.node.membership.here ∧
      q.node.membership.hash = p.node.membership.hash := by
  refine run_induction (P := fun _ n => n.membership.here = p.node.membership.here ∧
    n.membership.hash = p.node.membership.hash) ?_ ?_ ?_ ⟨rfl, rfl⟩ hrun
  · intro sent n n' hn haside
    rw [haside.membership]
    exact hn
  · intro sent now op n n' effects hn hsettle
    obtain ⟨m, happly, rfl⟩ := Node.settle_eq_done hsettle
    rw [Node.membership_spread]
    exact ⟨(op.here_eq happly).trans hn.1, (op.hash_eq happly).trans hn.2⟩
  · exact fun hn _ => hn

/-- Where an act has stopped. -/
inductive Halts (now : Moment) (p : Process) : Process → Prop
  | move {n : Node} (h : Node.Stops now p.node n) : Halts now p (p.withNode n)
  | announce {call : ℕ} {n : Node} (hentered : p.calls call = .entered)
      (h : Node.Stops now p.node n) : Halts now p ((p.withNode n).withStage call .joining)
  | complete {call : ℕ} {snapshots : List Snapshot} {n : Node} (hjoining : p.calls call = .joining)
      (h : (p.node.adopt now snapshots).1.openGate now = .exhausted n) :
      Halts now p ((p.withNode n).withStage call .joined)
  | expire {e : Expiry} {n : Node}
      (h : Node.Stops now { p.node with suspicion := (p.node.suspicion.claim e).1 } n) :
      Halts now p (p.withNode n)

/-- **An act stops in one of these ways.** -/
theorem halts_of_perform (h : act.perform now p = .exhausted q) : Halts now p q := by
  cases act with
  | move move =>
      obtain ⟨n, hperform, rfl⟩ := Attempt.mapState_eq_exhausted h
      exact .move (Node.stops_of_perform hperform)
  | enter call =>
      rw [Act.perform] at h
      split at h <;> cases h
  | announce call =>
      rw [Act.perform] at h
      split at h
      · next hentered =>
        rw [announce] at h
        cases hfresh : p.node.membership.freshIncarnation? now.wall with
        | none =>
            rw [hfresh] at h
            obtain rfl := Attempt.exhausted.inj h
            exact .move (.fresh hfresh)
        | some inc =>
            rw [hfresh] at h
            obtain ⟨n, hmap, rfl⟩ := Attempt.mapState_eq_exhausted h
            exact .announce hentered (Node.stops_of_assert (Attempt.map_eq_exhausted hmap))
      · cases h
  | fail call =>
      rw [Act.perform] at h
      split at h <;> cases h
  | complete call snapshots =>
      rw [Act.perform] at h
      split at h
      · next hjoining =>
        obtain ⟨n, hmap, rfl⟩ := Attempt.mapState_eq_exhausted h
        exact .complete hjoining (Attempt.map_eq_exhausted hmap)
      · cases h
  -- running out only sends; it is the expiry that asserts
  | runOut => cases h
  | expire e =>
      rw [Act.perform] at h
      split at h
      · obtain ⟨n, hmap, rfl⟩ := Attempt.mapState_eq_exhausted h
        have hexpire := Attempt.map_eq_exhausted hmap
        rw [Node.expire] at hexpire
        dsimp only at hexpire
        split at hexpire
        · exact .expire (Node.stops_of_assert hexpire)
        · cases hexpire
      · cases h

/-- Every stop of a process comes from a node whose local row carries the last incarnation. -/
theorem spent_of_perform (h : act.perform now p = .exhausted q) : q.node.Spent := by
  cases halts_of_perform h with
  | move hstops => exact hstops.spent
  | announce _ hstops => exact hstops.spent
  | complete _ hcomplete => exact Node.spent_of_settle .openGate hcomplete
  | expire hstops => exact hstops.spent

/-- **A run stops at the largest incarnation only**, in one of its acts. -/
theorem run_eq_exhausted (h : p.run acts = .exhausted q) :
    q.node.Spent ∧ ∃ first now act rest before, acts = first ++ (now, act) :: rest ∧
      p.run first = .done before () ∧ act.perform now before = .exhausted q := by
  induction acts generalizing p with
  | nil => cases h
  | cons entry rest ih =>
      obtain ⟨now, act⟩ := entry
      rw [run] at h
      rcases Attempt.andThen_eq_exhausted h with hact | ⟨p₁, out, hact, hrest⟩
      · exact ⟨spent_of_perform hact, [], now, act, rest, p, rfl, rfl, hact⟩
      · obtain ⟨hspent, first, now', act', rest', before, rfl, hfirst, hstop⟩ := ih hrest
        refine ⟨hspent, (now, act) :: first, now', act', rest', before, rfl, ?_, hstop⟩
        rw [run, hact]
        exact hfirst

/-- One act after the other. Where one stops, the next one goes on from there. -/
def persist (p : Process) : List (Moment × Act) → Process
  | [] => p
  | (now, act) :: rest => persist (act.perform now p).state rest

theorem persist_append (p : Process) (first second : List (Moment × Act)) :
    p.persist (first ++ second) = (p.persist first).persist second := by
  induction first generalizing p with
  | nil => rfl
  | cons entry rest ih => exact ih _

/-- What a run leads to is reached in this way. -/
theorem persist_of_run {acts : List (Moment × Act)} (h : p.run acts = .done q ()) :
    p.persist acts = q := by
  induction acts generalizing p with
  | nil => exact (Attempt.done.inj h).1
  | cons entry rest ih =>
      obtain ⟨now, act⟩ := entry
      rw [run] at h
      obtain ⟨p₁, out, hact, hrest⟩ := Attempt.andThen_eq_done h
      rw [persist, hact]
      exact ih hrest

end Process

end GossipRing
