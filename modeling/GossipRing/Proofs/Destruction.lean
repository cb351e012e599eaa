import GossipRing.Proofs.Departure
import Mathlib.Data.Fintype.EquivFin

/-!
# A destruction that does not last

Toward: what still goes on in a node that has been destroyed. It answers requests, and its operator can
tell it to leave and to come back. A node that comes back probes only if it has not been destroyed; but
it suspects others again in any case.

* **`Engine`**, **`Deed`** — a node whose probing has a lock of its own. Whoever starts it finds out first
  whether the node is destroyed, and anything may happen before the start goes on. What deeds lead to
  is reached by acts (`Engine.reached_of_run`).
* **`Switches`** — whether the node is destroyed, probes, and refuses timers, and how many starts are
  under way. `Switches.Turn` is all that a deed does to these, but for a return (`Engine.turn_of_perform`).
* **`Switches.Halted`** — the node is destroyed, and whatever makes it probe was under way before.
* **`Engine.destruction`** — the deeds of a call to destroy the node, with what comes in between.
* **`Process.Disarmed`** — the node has no timers, nothing that it hears starts one, and no expiry
  changes anything.
* **`Engine.destruction_final_iff`** — a destroyed node does not begin to probe, whatever happens, and it is
  disarmed exactly until a return succeeds.
-/

namespace GossipRing

/-- Let the node probe, or stop probing. -/
def Process.withGossip (p : Process) (status : GossipStatus) : Process :=
  p.withNode { p.node with gossip := status }

/-- A node, and how many starts of its probing are under way: each has found that the node is not
    destroyed, and does not look again. -/
structure Engine where
  process : Process
  cleared : ℕ

/-- What can happen next. -/
inductive Deed where
  /-- A stretch under the lock of the node. -/
  | act (act : Act)
  /-- A start finds out whether the node is destroyed. -/
  | check
  /-- A start goes on. If the node probes already, it goes on probing. -/
  | launch
  /-- The probing is stopped. -/
  | stop

/-- What becomes of it. Stretches do not decide whether the node probes: a departure stops the probing in
    a deed of its own, and a return starts it in two. -/
def Deed.perform (now : Moment) (e : Engine) : Deed → Attempt Engine Unit
  | act a => (a.perform now e.process).mapState fun p =>
      { e with process := p.withGossip e.process.node.gossip }
  | check => .done (if e.process.node.destroyed then e else { e with cleared := e.cleared + 1 }) ()
  | launch =>
    .done (if e.cleared = 0 then e
      else { process := e.process.withGossip .running, cleared := e.cleared - 1 }) ()
  | stop => .done { e with process := e.process.withGossip .stopped } ()

/-! ## Switches -/

/-- What is on or off in a node, and the starts under way. -/
structure Switches where
  destroyed : Bool
  gossip : GossipStatus
  disabled : Bool
  cleared : ℕ

namespace Switches

/-- What can be done to the switches otherwise than by a return. -/
inductive Turn (s : Switches) : Switches → Prop
  | none : Turn s s
  | condemn : Turn s { s with destroyed := true }
  | disable : Turn s { s with disabled := true }
  | check (h : s.destroyed = false) : Turn s { s with cleared := s.cleared + 1 }
  | launch (h : 0 < s.cleared) : Turn s { s with gossip := .running, cleared := s.cleared - 1 }
  | stop : Turn s { s with gossip := .stopped }

/-- After a return timers are allowed. -/
def returned (s : Switches) : Switches := { s with disabled := false }

/-- The node is destroyed, and no more starts are under way than these. -/
structure Condemned (limit : ℕ) (s : Switches) : Prop where
  destroyed : s.destroyed = true
  within : s.cleared ≤ limit

/-- The node is destroyed, and if it probes, one of these starts has gone on. -/
structure Halted (limit : ℕ) (s : Switches) : Prop extends Condemned limit s where
  launched : s.gossip = .running → s.cleared < limit

variable {s s' : Switches} {limit : ℕ}

/-- What is condemned stays so: a start under way may still launch, but no check lets another one
    through. -/
theorem Turn.condemned (h : s.Turn s') (hs : s.Condemned limit) : s'.Condemned limit := by
  cases h with
  | none => exact hs
  | condemn => exact ⟨rfl, hs.within⟩
  | disable => exact ⟨hs.destroyed, hs.within⟩
  | check hnot => exact absurd (hnot.symm.trans hs.destroyed) Bool.false_ne_true
  | launch _ => exact ⟨hs.destroyed, (Nat.sub_le _ _).trans hs.within⟩
  | stop => exact ⟨hs.destroyed, hs.within⟩

/-- Nothing but a start that is under way makes a destroyed node probe, and each does so once. -/
theorem Turn.halted (h : s.Turn s') (hs : s.Halted limit) : s'.Halted limit := by
  refine ⟨h.condemned hs.toCondemned, ?_⟩
  cases h with
  | none => exact hs.launched
  | condemn => exact hs.launched
  | disable => exact hs.launched
  | check hnot => exact absurd (hnot.symm.trans hs.destroyed) Bool.false_ne_true
  | launch hpos => exact fun _ => (Nat.sub_lt hpos Nat.one_pos).trans_le hs.within
  | stop =>
      intro hrunning
      cases hrunning

theorem Turn.disabled (h : s.Turn s') (hoff : s.disabled = true) : s'.disabled = true := by
  cases h with
  | disable => rfl
  | _ => exact hoff

theorem Condemned.returned (h : s.Condemned limit) : s.returned.Condemned limit :=
  ⟨h.destroyed, h.within⟩

theorem Halted.returned (h : s.Halted limit) : s.returned.Halted limit :=
  ⟨h.toCondemned.returned, h.launched⟩

end Switches

open Switches (Turn)

namespace Node

/-! ## What a stretch does to the switches -/

section

variable {now : Moment} {n n' : Node} {effects : List Change} {move : Move} {gossip : GossipStatus}
  {cleared : ℕ}

/-- The switches of the node, where the others stand like this. -/
def switches (n : Node) (gossip : GossipStatus) (cleared : ℕ) : Switches :=
  ⟨n.destroyed, gossip, n.suspicion.disabled, cleared⟩

theorem destroyed_spread (n : Node) (now : Moment) (effects : List Change) :
    (n.spread now effects).destroyed = n.destroyed := by
  rw [spread]
  split <;> rfl

theorem destroyed_settle {outcome : Attempt Membership (List Change)}
    (h : n.settle now outcome = .done n' effects) : n'.destroyed = n.destroyed := by
  obtain ⟨m, -, rfl⟩ := settle_eq_done h
  exact destroyed_spread _ _ _

/-- **Taking claims in turns no switch.** -/
theorem switches_settle {outcome : Attempt Membership (List Change)}
    (h : n.settle now outcome = .done n' effects) :
    n'.switches gossip cleared = n.switches gossip cleared := by
  rw [switches, switches, destroyed_settle h, disabled_settle h]

theorem Heeds.switches (h : Heeds now n n') :
    n'.switches gossip cleared = n.switches gossip cleared := by
  rcases h with rfl | ⟨op, effects, -, hsettle⟩
  · rfl
  · exact switches_settle hsettle

/-- A return is refused, or it succeeds and allows timers. -/
theorem switches_of_rejoin {outcome : Except NodeError Unit} (h : n.rejoin now = .done n' outcome)
    (gossip : GossipStatus) (cleared : ℕ) :
    n' = n ∧ outcome ≠ .ok () ∨ outcome = .ok () ∧
      n'.switches gossip cleared = (n.switches gossip cleared).returned ∧
      n'.membership.isReady = true := by
  rcases n.rejoin_cases now with ⟨e, hrefused⟩ | ⟨-, hstop⟩ | ⟨own, inc, hown, hrejoin⟩
  · obtain ⟨rfl, rfl⟩ := Attempt.done.inj (hrefused.symm.trans h)
    exact Or.inl ⟨rfl, fun hok => nomatch hok⟩
  · cases hstop.symm.trans h
  · obtain ⟨n₁, effects, hassert, hlast⟩ := Attempt.andThen_eq_done (hrejoin.symm.trans h)
    obtain ⟨rfl, rfl⟩ := Attempt.done.inj hlast
    have hready : n₁.membership.isReady = true := by
      rw [(heeds_of_assert hassert).advances.2.ready]
      exact isReady_of_ownRow hown
    refine Or.inr ⟨rfl, ?_, ?_⟩
    · rw [← switches_settle hassert, startGossip]
      split <;> rfl
    · rw [startGossip]
      split <;> exact hready

/-- An expiry turns no switch. -/
theorem switches_of_expire {e : Expiry} (h : n.expire now e = .done n' effects) :
    n'.switches gossip cleared = n.switches gossip cleared := by
  have hclaimed : ({ n with suspicion := (n.suspicion.claim e).1 } : Node).switches gossip cleared =
      n.switches gossip cleared := by
    rw [Suspicion.claim]
    split <;> rfl
  rw [expire] at h
  dsimp only at h
  split at h
  · exact (switches_settle h).trans hclaimed
  · rw [(Attempt.done.inj h).1]

/-- **What a stretch does to the switches**, if it is no return. -/
theorem turn_of_perform (hreturn : move ≠ .rejoin) (h : move.perform now n = .done n' ()) :
    (n.switches gossip cleared).Turn (n'.switches gossip cleared) := by
  obtain ⟨n₁, hheeds, hadjusts⟩ := adjusts_of_perform h
  rw [← hheeds.switches]
  cases hadjusts with
  | none => exact .none
  | handOut => exact .none
  | rotate rotation => exact .none
  | configure hconfigure =>
      obtain ⟨merged, -, rfl⟩ := configure_eq_ok hconfigure
      exact .none
  | leave => exact .disable
  | rejoin => exact absurd rfl hreturn
  | setGossip status => exact .none
  | condemn => exact .condemn
  | stopTimers => exact .disable

end

end Node

/-! ## What an act does to the switches -/

namespace Process

variable {now : Moment} {p q : Process} {act : Act} {gossip : GossipStatus} {cleared : ℕ}

/-- **An act turns the switches to one side, or it is a return that succeeds.** -/
theorem turn_of_perform (h : act.perform now p = .done q ()) :
    (p.node.switches gossip cleared).Turn (q.node.switches gossip cleared) ∨
      act = .move .rejoin ∧ p.node.rejoin now = .done q.node (.ok ()) ∧
        q.node.switches gossip cleared = (p.node.switches gossip cleared).returned := by
  by_cases hmove : ∃ move, act = .move move
  · obtain ⟨move, rfl⟩ := hmove
    obtain ⟨n, hperform, rfl⟩ := Attempt.mapState_eq_done h
    by_cases hreturn : move = .rejoin
    · subst hreturn
      obtain ⟨outcome, hrejoin, -⟩ := Attempt.map_eq_done hperform
      rcases Node.switches_of_rejoin hrejoin gossip cleared with ⟨rfl, -⟩ | ⟨rfl, hreturned, -⟩
      · exact Or.inl .none
      · exact Or.inr ⟨rfl, hrejoin, hreturned⟩
    · exact Or.inl (Node.turn_of_perform hreturn hperform)
  · -- none of the others is a stretch, and none turns a switch
    suffices hsame : q.node.switches gossip cleared = p.node.switches gossip cleared by
      rw [hsame]
      exact Or.inl .none
    cases act with
    | move move => exact absurd ⟨move, rfl⟩ hmove
    | enter call =>
        rw [Act.perform] at h
        split at h
        all_goals
          obtain ⟨rfl, -⟩ := Attempt.done.inj h
          rfl
    | announce call =>
        rw [Act.perform] at h
        split at h
        · obtain ⟨inc, effects, n, hassert, rfl⟩ := announce_eq_done h
          exact Node.switches_settle hassert
        · rw [← (Attempt.done.inj h).1]
    | fail call =>
        rw [Act.perform] at h
        split at h
        all_goals
          obtain ⟨rfl, -⟩ := Attempt.done.inj h
          rfl
    | complete call snapshots =>
        rw [Act.perform] at h
        split at h
        · obtain ⟨n, hmap, rfl⟩ := Attempt.mapState_eq_done h
          obtain ⟨effects, hcomplete, -⟩ := Attempt.map_eq_done hmap
          exact (Node.switches_settle hcomplete).trans
            (Node.switches_settle (p.node.settle_adopt now snapshots))
        · rw [← (Attempt.done.inj h).1]
    | runOut =>
        rw [← (Attempt.done.inj h).1]
        rfl
    | expire e =>
        rw [Act.perform] at h
        split at h
        · obtain ⟨n, hmap, rfl⟩ := Attempt.mapState_eq_done h
          obtain ⟨effects, hexpire, -⟩ := Attempt.map_eq_done hmap
          exact Node.switches_of_expire hexpire
        · rw [← (Attempt.done.inj h).1]

/-- Whether a node probes can be set at any moment of a run. -/
theorem Reached.withGossip (hp : p.Reached) (status : GossipStatus) :
    (p.withGossip status).Reached := by
  have hset : p.run [(⟨0, 0⟩, .move (.setGossip status))] = .done (p.withGossip status) () := rfl
  exact hp.run hset

theorem Reached.perform (hp : p.Reached) (h : act.perform now p = .done q ()) : q.Reached := by
  have hrun : p.run [(now, act)] = .done q () := by
    rw [Process.run, h]
    rfl
  exact hp.run hrun

end Process

/-! ## Every run -/

namespace Engine

variable {now : Moment} {p e e' q r : Engine} {deed : Deed} {deeds rest : List (Moment × Deed)}

/-- One deed after the other. -/
def run (e : Engine) : List (Moment × Deed) → Attempt Engine Unit
  | [] => .done e ()
  | (now, deed) :: rest => (deed.perform now e).andThen fun e _ => run e rest

/-- The switches of the node, and the starts under way. -/
def switches (e : Engine) : Switches := e.process.node.switches e.process.node.gossip e.cleared

/-- A return succeeds in the course of these deeds. -/
def Returns (e : Engine) (deeds : List (Moment × Deed)) : Prop :=
  ∃ first now rest q n, deeds = first ++ (now, .act (.move .rejoin)) :: rest ∧
    e.run first = .done q () ∧ q.process.node.rejoin now = .done n (.ok ())

theorem run_append (e : Engine) (first second : List (Moment × Deed)) :
    e.run (first ++ second) = (e.run first).andThen fun e _ => e.run second := by
  induction first generalizing e with
  | nil => rfl
  | cons entry rest ih =>
      obtain ⟨now, deed⟩ := entry
      rw [List.cons_append, run, run]
      cases deed.perform now e with
      | exhausted q => rfl
      | done q out => exact ih q

/-- **What a deed leads to is reached by acts**, among them some that set whether the node probes. -/
theorem reached_of_perform (he : e.process.Reached) (h : deed.perform now e = .done q ()) :
    q.process.Reached := by
  cases deed with
  | act a =>
      obtain ⟨p, hact, rfl⟩ := Attempt.mapState_eq_done h
      exact (he.perform hact).withGossip _
  | check =>
      obtain ⟨rfl, -⟩ := Attempt.done.inj h
      split <;> exact he
  | launch =>
      obtain ⟨rfl, -⟩ := Attempt.done.inj h
      split
      · exact he
      · exact he.withGossip _
  | stop =>
      obtain ⟨rfl, -⟩ := Attempt.done.inj h
      exact he.withGossip _

/-- **What a deed does to the switches**: a turn to one side, or a return that succeeds. -/
theorem turn_of_perform (h : deed.perform now e = .done q ()) :
    e.switches.Turn q.switches ∨ q.switches = e.switches.returned ∧
      ∃ n, deed = .act (.move .rejoin) ∧ e.process.node.rejoin now = .done n (.ok ()) := by
  cases deed with
  | act a =>
      obtain ⟨p, hact, rfl⟩ := Attempt.mapState_eq_done h
      rcases Process.turn_of_perform hact with hturn | ⟨rfl, hrejoin, hreturned⟩
      · exact Or.inl hturn
      · exact Or.inr ⟨hreturned, _, rfl, hrejoin⟩
  | check =>
      obtain ⟨rfl, -⟩ := Attempt.done.inj h
      refine Or.inl ?_
      split
      · exact .none
      · next halive => exact .check (Bool.not_eq_true _ ▸ halive)
  | launch =>
      obtain ⟨rfl, -⟩ := Attempt.done.inj h
      refine Or.inl ?_
      split
      · exact .none
      · next hsome => exact .launch (Nat.pos_of_ne_zero hsome)
  | stop =>
      obtain ⟨rfl, -⟩ := Attempt.done.inj h
      exact Or.inl .stop

/-- What every deed keeps, a completed run keeps. -/
theorem run_induction {P : Engine → Prop}
    (hstep : ∀ {now : Moment} {deed : Deed} {e q : Engine},
      P e → deed.perform now e = .done q () → P q)
    (he : P e) (h : e.run deeds = .done q ()) : P q := by
  induction deeds generalizing e with
  | nil =>
      obtain ⟨rfl, -⟩ := Attempt.done.inj h
      exact he
  | cons entry rest ih =>
      obtain ⟨now, deed⟩ := entry
      rw [run] at h
      obtain ⟨e₁, out, hdeed, hrest⟩ := Attempt.andThen_eq_done h
      exact ih (hstep he hdeed) hrest

theorem reached_of_run (he : e.process.Reached) (h : e.run deeds = .done q ()) :
    q.process.Reached :=
  run_induction (P := fun e => e.process.Reached) reached_of_perform he h

/-- A property of the switches that turns keep, and returns as well, is kept by every run. -/
theorem switches_induction {P : Switches → Prop}
    (hturn : ∀ {s s' : Switches}, s.Turn s' → P s → P s')
    (hreturned : ∀ {s : Switches}, P s → P s.returned) (he : P e.switches)
    (h : e.run deeds = .done q ()) : P q.switches := by
  refine run_induction (P := fun e => P e.switches) ?_ he h
  intro now deed e q he hdeed
  rcases turn_of_perform hdeed with hturned | ⟨heq, -⟩
  · exact hturn hturned he
  · rw [heq]
    exact hreturned he

theorem Returns.cons (h : deed.perform now e = .done q ()) (hrest : q.Returns rest) :
    e.Returns ((now, deed) :: rest) := by
  obtain ⟨first, later, last, s, n, rfl, hfirst, hrejoin⟩ := hrest
  refine ⟨(now, deed) :: first, later, last, s, n, rfl, ?_, hrejoin⟩
  rw [run, h]
  exact hfirst

theorem Returns.append (h : e.Returns deeds) (rest : List (Moment × Deed)) :
    e.Returns (deeds ++ rest) := by
  obtain ⟨first, now, last, q, n, rfl, hfirst, hrejoin⟩ := h
  exact ⟨first, now, last ++ rest, q, n, List.append_assoc _ _ _, hfirst, hrejoin⟩

theorem not_returns (h : ∀ entry ∈ deeds, entry.2 ≠ .act (.move .rejoin)) : ¬e.Returns deeds := by
  rintro ⟨first, now, rest, q, n, rfl, -⟩
  exact h _ (List.mem_append_right _ List.mem_cons_self) rfl

/-- **Timers stay refused**, as long as no return succeeds. -/
theorem disabled_of_run (hoff : e.process.node.suspicion.disabled = true)
    (hreturns : ¬e.Returns deeds) (h : e.run deeds = .done q ()) :
    q.process.node.suspicion.disabled = true := by
  induction deeds generalizing e with
  | nil =>
      obtain ⟨rfl, -⟩ := Attempt.done.inj h
      exact hoff
  | cons entry rest ih =>
      obtain ⟨now, deed⟩ := entry
      rw [run] at h
      obtain ⟨e₁, out, hdeed, hrest⟩ := Attempt.andThen_eq_done h
      rcases turn_of_perform hdeed with hturned | ⟨-, n, rfl, hrejoin⟩
      · exact ih (hturned.disabled hoff) (fun hlater => hreturns (hlater.cons hdeed)) hrest
      · exact absurd ⟨[], now, rest, e, n, rfl, rfl, hrejoin⟩ hreturns

end Engine

/-! ## Nothing is left of the failure detector, or all of it is -/

namespace Process

variable {p : Process}

/-- There are no timers, nothing that the node hears starts one, and no expiry changes anything. -/
structure Disarmed (p : Process) : Prop where
  timers : p.node.suspicion.timers = []
  hears : ∀ now claims n effects, p.node.update now claims = .done n effects →
    n.suspicion.timers = []
  expires : ∀ now e, p.node.expire now e = .done p.node []

/-- **While timers are refused** the node is disarmed. -/
theorem Reached.disarmed (hp : p.Reached) (hoff : p.node.suspicion.disabled = true) : p.Disarmed := by
  have htimers := hp.watchful.backed.disabled hoff
  refine ⟨htimers, ?_, ?_⟩
  · intro now claims n effects hupdate
    have hafter := hp.watchful.settle (.update claims false) hupdate
    exact hafter.backed.disabled ((Node.disabled_settle hupdate).trans hoff)
  · intro now e
    rw [Node.expire, Suspicion.claim_of_nil htimers]
    rfl

/-- **While they are allowed**, somebody whom the node hears to be suspect gets a timer, which makes it
    faulty if nothing comes in between. -/
theorem Reached.armed (hp : p.Reached) (hready : p.node.membership.isReady = true)
    (hon : p.node.suspicion.disabled = false) {c : Change} (hstatus : c.status = .suspect)
    (hnamed : c.address ≠ "") (hremote : c.address ≠ p.node.address)
    (hstranger : p.node.membership.row? c.address = none) (now : Moment) :
    ∃ n e, p.node.update now [c] = .done n [c] ∧ n.suspicion.timers ≠ [] ∧
      (p.withNode n).Fires c.toMember e := by
  have hlocal : c.address ≠ p.node.membership.here := hp.orderly.here ▸ hremote
  have haccepts : p.node.membership.Accepts c :=
    (Membership.accepts_iff_of_none hstranger).mpr fun h => absurd h hlocal
  have happlied : p.node.membership.update now.wall [c] false =
      .done ((p.node.membership.put c.toMember).conclude [c]) [c] :=
    Membership.update_of_applied hready false
      (.accept (fun hempty => hnamed (String.isEmpty_iff.mp hempty)) haccepts .nil)
  obtain ⟨n, hupdate, htimes⟩ : ∃ n, p.node.update now [c] = .done n [c] ∧
      n.suspicion.Times c.toMember := by
    rw [Node.update, happlied]
    refine ⟨_, rfl, ?_⟩
    rw [Node.suspicion_spread]
    exact Suspicion.times_track_self hon (hp.watchful.here.symm ▸ hremote) hstatus
  -- hearing of the suspect by a response is an act, so the node is reached, and its timers fire
  have hheard : p.run [(now, .move (.absorb [c]))] = .done (p.withNode n) () := by
    have habsorb : p.node.absorb now [c] = .done n [c] := hupdate
    rw [Process.run, Act.perform, Move.perform, habsorb]
    rfl
  obtain ⟨e, -, -, hfires⟩ := (hp.run hheard).fires htimes
  refine ⟨n, e, hupdate, ?_, hfires⟩
  obtain ⟨t, ht, -⟩ := htimes
  exact List.ne_nil_of_mem ht

/-- There is always somebody whom a node does not know. -/
theorem exists_stranger (n : Node) :
    ∃ address, address ≠ "" ∧ address ≠ n.address ∧ n.membership.row? address = none := by
  obtain ⟨address, hnew⟩ :=
    Infinite.exists_notMem_finset ("" :: n.address :: n.membership.rows.map Member.address).toFinset
  simp only [List.toFinset_cons, Finset.mem_insert, List.mem_toFinset, not_or] at hnew
  obtain ⟨hnamed, hremote, hrows⟩ := hnew
  refine ⟨address, hnamed, hremote, ?_⟩
  rw [Membership.row?, List.find?_eq_none]
  intro row hrow habout
  exact hrows (List.mem_map.mpr ⟨row, hrow, of_decide_eq_true habout⟩)

end Process

/-! ## A call to destroy the node -/

namespace Engine

variable {now : Moment} {p q r s : Engine} {n : Node} {deeds : List (Moment × Deed)}

/-- A return that succeeds leaves the node ready, with timers allowed. -/
theorem run_of_return (h : q.run deeds = .done s ())
    (hrejoin : s.process.node.rejoin now = .done n (.ok ())) :
    ∃ s', q.run (deeds ++ [(now, .act (.move .rejoin))]) = .done s' () ∧
      s'.process.node.membership.isReady = true ∧
      s'.process.node.suspicion.disabled = false := by
  obtain ⟨-, hnot⟩ | ⟨-, hreturned, hready⟩ := Node.switches_of_rejoin hrejoin .stopped 0
  · exact absurd rfl hnot
  · refine ⟨{ s with process := (s.process.withNode n).withGossip s.process.node.gossip }, ?_, hready,
      congrArg Switches.disabled hreturned⟩
    rw [run_append, h, Attempt.andThen_done, run, Deed.perform, Act.perform, Move.perform, hrejoin]
    rfl

/-- The deeds of a call to destroy a node, with what else happens before it returns. -/
def destruction (condemned stopped disabled : Moment) (meanwhile later : List (Moment × Deed)) :
    List (Moment × Deed) :=
  (condemned, .act (.move .condemn)) :: (meanwhile ++
    (stopped, .stop) :: (later ++ [(disabled, .act (.move .stopTimers))]))

/-- **After the call** the node is destroyed, and refuses timers. If it probes, a start that was under way
    before has gone on since. -/
theorem switches_of_destruction {condemned stopped disabled : Moment}
    {meanwhile later : List (Moment × Deed)}
    (h : p.run (destruction condemned stopped disabled meanwhile later) = .done q ()) :
    q.switches.Halted p.cleared ∧ q.process.node.suspicion.disabled = true := by
  rw [destruction, run] at h
  obtain ⟨p₁, out, hcondemn, h⟩ := Attempt.andThen_eq_done h
  rw [run_append] at h
  obtain ⟨p₂, out, hmeanwhile, h⟩ := Attempt.andThen_eq_done h
  rw [run] at h
  obtain ⟨p₃, out, hstop, h⟩ := Attempt.andThen_eq_done h
  rw [run_append] at h
  obtain ⟨p₄, out, hlater, h⟩ := Attempt.andThen_eq_done h
  rw [run] at h
  obtain ⟨p₅, out, hdisable, h⟩ := Attempt.andThen_eq_done h
  obtain ⟨rfl, -⟩ := Attempt.done.inj h
  -- what the destruction has set is kept by the deeds of others until its next stretch
  have hcondemned : p₂.switches.Condemned p.cleared := by
    refine switches_induction (fun h => h.condemned) (fun h => h.returned) ?_ hmeanwhile
    rw [← (Attempt.done.inj hcondemn).1]
    exact ⟨rfl, Nat.le_refl _⟩
  have hhalted : p₄.switches.Halted p.cleared := by
    refine switches_induction (fun h => h.halted) (fun h => h.returned) ?_ hlater
    rw [← (Attempt.done.inj hstop).1]
    exact ⟨⟨hcondemned.destroyed, hcondemned.within⟩, fun hrunning => by cases hrunning⟩
  have hdestroyed : p₄.process.node.destroyed = true := hhalted.destroyed
  rw [Deed.perform, Act.perform, Move.perform, if_pos hdestroyed] at hdisable
  obtain ⟨rfl, -⟩ := Attempt.done.inj hdisable
  exact ⟨⟨⟨hdestroyed, hhalted.within⟩, hhalted.launched⟩, rfl⟩

/-- **A destroyed node does not begin to probe, and it is disarmed exactly until a return succeeds.**

    Take a node that has come about by any run, and a call that destroys it, whatever happens meanwhile.
    Let anything happen to it then, in any order. It stays destroyed, which a node that probes finds out
    before each turn. If no start of its probing was under way when the call began, it is not made to
    probe at all; and each start that was does so once at most. If no return succeeds, it has at no
    moment a timer, nothing that it hears starts one, and no expiry changes anything. If one does, the
    node hears after it that somebody is suspect whom it does not know, and once the timer has run out
    that member is faulty. -/
theorem destruction_final_iff {condemned stopped disabled : Moment}
    {meanwhile later : List (Moment × Deed)} (hp : p.process.Reached)
    (hdestroyed : p.run (destruction condemned stopped disabled meanwhile later) = .done q ())
    (hrun : q.run deeds = .done r ()) :
    r.process.node.destroyed = true ∧
      (p.cleared = 0 → r.process.node.gossip = .stopped) ∧
      (r.process.node.gossip = .running → r.cleared < p.cleared) ∧
      ((∀ first rest s, deeds = first ++ rest → q.run first = .done s () → s.process.Disarmed) ↔
        ¬q.Returns deeds) ∧
      ∀ first now rest s n, deeds = first ++ (now, .act (.move .rejoin)) :: rest →
        q.run first = .done s () → s.process.node.rejoin now = .done n (.ok ()) →
        ∀ c : Change, c.status = .suspect → c.address ≠ "" → c.address ≠ n.address →
          n.membership.row? c.address = none → ∀ heard, ∃ n' e,
            n.update heard [c] = .done n' [c] ∧ n'.suspicion.timers ≠ [] ∧
            (s.process.withNode n').Fires c.toMember e := by
  have hq : q.process.Reached := reached_of_run hp hdestroyed
  obtain ⟨hswitches, hoff⟩ := switches_of_destruction hdestroyed
  -- from here on no start is let through that destruction has not found under way
  have hhalted : r.switches.Halted p.cleared :=
    switches_induction (fun h => h.halted) (fun h => h.returned) hswitches hrun
  refine ⟨hhalted.destroyed, ?_, hhalted.launched, ⟨?_, ?_⟩, ?_⟩
  · intro hnone
    cases hgossip : r.process.node.gossip with
    | stopped => rfl
    | running => exact absurd (hhalted.launched hgossip) (hnone ▸ Nat.not_lt_zero _)
  · rintro hall ⟨first, now, rest, s, n, rfl, hfirst, hrejoin⟩
    obtain ⟨s', hthen, hready, hon⟩ := run_of_return hfirst hrejoin
    have hreached := reached_of_run hq hthen
    obtain ⟨address, hnamed, hremote, hstranger⟩ := Process.exists_stranger s'.process.node
    obtain ⟨n', e, hupdate, hlive, -⟩ := hreached.armed hready hon
      (c := ⟨address, .suspect, 0, "", 0, 0⟩) rfl hnamed hremote hstranger now
    have hdisarmed := hall (first ++ [(now, .act (.move .rejoin))]) rest s' (by simp) hthen
    exact hlive (hdisarmed.hears now _ n' _ hupdate)
  · rintro hreturns first rest s rfl hfirst
    exact (reached_of_run hq hfirst).disarmed
      (disabled_of_run hoff (fun h => hreturns (h.append rest)) hfirst)
  · intro first now rest s n hdeeds hfirst hrejoin c hstatus hnamed hremote hstranger heard
    obtain ⟨-, hnot⟩ | ⟨-, hreturned, hready⟩ := Node.switches_of_rejoin hrejoin .stopped 0
    · exact absurd rfl hnot
    · have hreturn : (Act.move .rejoin).perform now s.process = .done (s.process.withNode n) () := by
        rw [Act.perform, Move.perform, hrejoin]
        rfl
      exact ((reached_of_run hq hfirst).perform hreturn).armed hready
        (congrArg Switches.disabled hreturned) hstatus hnamed hremote hstranger heard

/-- The node `a` is destroyed while another call is about to make it probe. It leaves, hears that `b` is
    suspect, and is told to leave once more: it has no timer. -/
theorem destruction_final_iff_without_return :
    ∃ node p q r,
      Node.createWith hash32 "a" { Settings.default with replicaPoints := 2 } .none = .ok node ∧
      (Process.start node).run
        [(⟨7, 0⟩, .enter 0), (⟨7, 0⟩, .announce 0),
          (⟨8, 1⟩, .complete 0 [⟨some 1, [⟨"b", .alive, 5, "b", 5, 7⟩]⟩]),
          (⟨8, 1⟩, .move (.setGossip .running))] = .done p () ∧
      (Engine.mk p 0).run (destruction ⟨9, 2⟩ ⟨9, 2⟩ ⟨9, 3⟩ [] [(⟨9, 2⟩, .check), (⟨9, 2⟩, .launch)]) =
        .done q () ∧
      q.run [(⟨10, 4⟩, .act (.move .leave)), (⟨10, 4⟩, .stop),
        (⟨11, 5⟩, .act (.move (.answerPing ⟨none, [⟨"b", .suspect, 5, "c", 1, 9⟩], "c", 1⟩))),
        (⟨12, 6⟩, .act (.move .leave)), (⟨12, 6⟩, .check), (⟨12, 6⟩, .launch)] = .done r () ∧
      r.process.node.membership.row? "b" = some ⟨"b", .suspect, 5⟩ ∧
      r.process.node.gossip = .stopped ∧ r.process.Disarmed := by
  have hnode : Node.createWith hash32 "a" { Settings.default with replicaPoints := 2 } .none =
      .ok _ := rfl
  have hp : Process.Reached _ := ⟨hash32, "a", _, .none, _,
    [(⟨7, 0⟩, .enter 0), (⟨7, 0⟩, .announce 0),
      (⟨8, 1⟩, .complete 0 [⟨some 1, [⟨"b", .alive, 5, "b", 5, 7⟩]⟩]),
      (⟨8, 1⟩, .move (.setGossip .running))], hnode,
    Attempt.eq_done_of_result? (by decide +kernel)⟩
  obtain ⟨-, hstopped, -, hdisarmed, -⟩ := @destruction_final_iff ⟨_, 0⟩ _ _
    [(⟨10, 4⟩, .act (.move .leave)), (⟨10, 4⟩, .stop),
      (⟨11, 5⟩, .act (.move (.answerPing ⟨none, [⟨"b", .suspect, 5, "c", 1, 9⟩], "c", 1⟩))),
      (⟨12, 6⟩, .act (.move .leave)), (⟨12, 6⟩, .check), (⟨12, 6⟩, .launch)]
    ⟨9, 2⟩ ⟨9, 2⟩ ⟨9, 3⟩ [] [(⟨9, 2⟩, .check), (⟨9, 2⟩, .launch)] hp
    (Attempt.eq_done_of_result? (by decide +kernel)) (Attempt.eq_done_of_result? (by decide +kernel))
  refine ⟨_, _, _, _, hnode, Attempt.eq_done_of_result? (by decide +kernel),
    Attempt.eq_done_of_result? (by decide +kernel), Attempt.eq_done_of_result? (by decide +kernel),
    by decide +kernel, hstopped rfl, hdisarmed.mpr (not_returns ?_) _ [] _ (List.append_nil _).symm ?_⟩
  · simp
  · exact Attempt.eq_done_of_result? (by decide +kernel)

/-- The node `a` is destroyed, leaves and comes back. Then it hears that `b` is suspect, and in the end it
    takes `b` for faulty. -/
theorem destruction_undone_by_return :
    ∃ node p q r,
      Node.createWith hash32 "a" { Settings.default with replicaPoints := 2 } .none = .ok node ∧
      (Process.start node).run
        [(⟨7, 0⟩, .enter 0), (⟨7, 0⟩, .announce 0),
          (⟨8, 1⟩, .complete 0 [⟨some 1, [⟨"b", .alive, 5, "b", 5, 7⟩]⟩]),
          (⟨8, 1⟩, .move (.setGossip .running))] = .done p () ∧
      (Engine.mk p 0).run (destruction ⟨9, 2⟩ ⟨9, 2⟩ ⟨9, 2⟩ [] []) = .done q () ∧
      q.process.node.destroyed = true ∧
      q.run [(⟨10, 3⟩, .act (.move .leave)), (⟨10, 3⟩, .stop), (⟨11, 4⟩, .act (.move .rejoin)),
        (⟨11, 4⟩, .check), (⟨11, 4⟩, .launch),
        (⟨12, 5⟩, .act (.move (.answerPing ⟨none, [⟨"b", .suspect, 5, "c", 1, 9⟩], "c", 1⟩))),
        (⟨99, 5005⟩, .act .runOut), (⟨99, 5005⟩, .act (.expire ⟨"b", 5, 1⟩))] = .done r () ∧
      r.process.node.destroyed = true ∧
      r.process.node.membership.row? "b" = some ⟨"b", .faulty, 5⟩ := by
  have hnode : Node.createWith hash32 "a" { Settings.default with replicaPoints := 2 } .none =
      .ok _ := rfl
  refine ⟨_, _, _, _, hnode, Attempt.eq_done_of_result? ?_, Attempt.eq_done_of_result? ?_, ?_,
    Attempt.eq_done_of_result? ?_, ?_, ?_⟩
  all_goals decide +kernel

end Engine

end GossipRing
