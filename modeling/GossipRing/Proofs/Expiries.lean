import GossipRing.Proofs.SuspicionTimers

/-!
# Which expiries count

Toward: an expiry that comes late, or a second time, makes nobody faulty. An expiry that is under way
cannot be called back when its timer is stopped or started anew. Whether it still counts is decided
when it is claimed, by its generation alone.

* **`Suspicion.Call`**, **`Suspicion.serve`** — calls in any order, with expiries of any kind claimed at
  any time, and what came of each (`Outcome`).
* **`Suspicion.Outstanding`**, **`Suspicion.Allowed`** — read off what came of the calls so far: the expiry
  was issued by the latest start for its address and nothing has ended its timer since, and suspicion
  is enabled.
* **`Suspicion.Accounts`** — the timers are those of the outstanding expiries, one for each address. One
  call keeps this (`Accounts.step`), and so does every run of calls (`Accounts.serve`).
* **`Suspicion.expiry_counts_iff`** — which expiries count and which starts succeed, after any calls.
-/

namespace GossipRing

namespace Suspicion

/-! ## Calls and what comes of them -/

/-- A call to the timers of a node. That some of them run out by themselves is told as a call, too. -/
inductive Call where
  | start (now : ℕ) (m : Member)
  | stop (address : String)
  | stopAll
  | reenable
  | runOut (now : ℕ)
  | expire (e : Expiry)

/-- What came of a call. A start that succeeds issues the expiry that its timer is to send. -/
inductive Outcome where
  | started (e : Expiry)
  | refused
  | stopped (address : String)
  | stoppedAll
  | reenabled
  | ranOut
  | expired (e : Expiry)
  | late (e : Expiry)
  deriving DecidableEq, Repr

def Call.perform (s : Suspicion) : Call → Suspicion × Outcome
  | start now m =>
    let (s, accepted) := s.start now m
    (s, if accepted then .started ⟨m.address, m.incarnation, s.generation⟩ else .refused)
  | stop address => (s.stop address, .stopped address)
  | stopAll => (s.stopAll, .stoppedAll)
  | reenable => (s.reenable, .reenabled)
  | runOut now => ((s.runOut now).1, .ranOut)
  | expire e =>
    let (s, counts) := s.claim e
    (s, if counts then .expired e else .late e)

/-- Calls in order, and what came of each. -/
def serve (s : Suspicion) : List Call → Suspicion × List Outcome
  | [] => (s, [])
  | call :: rest =>
    let (s, outcome) := call.perform s
    let (s, outcomes) := serve s rest
    (s, outcome :: outcomes)

/-- The outcomes that end the timer of an address, if there is one. -/
def Outcome.Ends (address : String) : Outcome → Prop
  | started e => e.address = address
  | stopped other => other = address
  | stoppedAll => True
  | expired e => e.address = address
  | refused | reenabled | ranOut | late _ => False

/-- The expiry was issued by the latest start for its address that succeeded. Since then the address
    has not been stopped, no more have all timers, and no expiry for the address has counted. -/
def Outstanding (log : List Outcome) (e : Expiry) : Prop :=
  ∃ before after, log = before ++ .started e :: after ∧ ∀ o ∈ after, ¬o.Ends e.address

/-- Whenever suspicion was disabled it was enabled again later. -/
def Allowed (log : List Outcome) : Prop :=
  ∀ before after, log = before ++ .stoppedAll :: after → .reenabled ∈ after

/-- The expiries that were issued, outstanding or not. -/
def issued (log : List Outcome) : List Expiry :=
  log.filterMap fun
    | .started e => some e
    | _ => none

section

variable {s : Suspicion} {e : Expiry} {o : Outcome} {log : List Outcome}
  {here address : String}

/-! ## One more outcome -/

/-- What stands in a list with one more outcome stood there before, or it is the last one. -/
theorem concat_eq_append_cons {x : Outcome} {before after : List Outcome} :
    log ++ [o] = before ++ x :: after ↔
      after = [] ∧ before = log ∧ x = o ∨
        ∃ init, after = init ++ [o] ∧ log = before ++ x :: init := by
  constructor
  · intro h
    rcases List.eq_nil_or_concat after with rfl | ⟨init, last, rfl⟩
    · obtain ⟨hbefore, hlast⟩ := List.append_inj' h rfl
      exact Or.inl ⟨rfl, hbefore.symm, (List.singleton_inj.mp hlast).symm⟩
    · rw [List.concat_eq_append] at h ⊢
      rw [← List.cons_append, ← List.append_assoc] at h
      obtain ⟨hlog, hlast⟩ := List.append_inj' h rfl
      obtain rfl := List.singleton_inj.mp hlast
      exact Or.inr ⟨init, rfl, hlog⟩
  · rintro (⟨rfl, rfl, rfl⟩ | ⟨init, rfl, rfl⟩)
    · rfl
    · rw [List.append_assoc, List.cons_append]

/-- After one more outcome an expiry is outstanding if this is its start, or if it was before and is
    not ended by this. -/
theorem outstanding_concat :
    Outstanding (log ++ [o]) e ↔ o = .started e ∨ Outstanding log e ∧ ¬o.Ends e.address := by
  constructor
  · rintro ⟨before, after, hlog, hafter⟩
    rcases concat_eq_append_cons.mp hlog with ⟨-, -, rfl⟩ | ⟨init, rfl, rfl⟩
    · exact Or.inl rfl
    · refine Or.inr ⟨⟨before, init, rfl, fun o ho => hafter o (List.mem_append_left _ ho)⟩, ?_⟩
      exact hafter o (List.mem_append_right _ (List.mem_singleton_self o))
  · rintro (rfl | ⟨⟨before, init, rfl, hinit⟩, hlast⟩)
    · exact ⟨log, [], rfl, fun o ho => absurd ho List.not_mem_nil⟩
    · refine ⟨before, init ++ [o], concat_eq_append_cons.mpr (Or.inr ⟨init, rfl, rfl⟩), ?_⟩
      intro o' ho'
      rcases List.mem_append.mp ho' with hold | hnew
      · exact hinit o' hold
      · exact List.mem_singleton.mp hnew ▸ hlast

/-- After one more outcome starts are allowed if it allows them again, or if they were before and it
    does not forbid them. -/
theorem allowed_concat :
    Allowed (log ++ [o]) ↔ o = .reenabled ∨ o ≠ .stoppedAll ∧ Allowed log := by
  constructor
  · intro h
    by_cases hreenabled : o = .reenabled
    · exact Or.inl hreenabled
    · refine Or.inr ⟨?_, fun before after hlog => ?_⟩
      · rintro rfl
        exact absurd (h log [] rfl) List.not_mem_nil
      · have hmem := h before (after ++ [o]) (concat_eq_append_cons.mpr (Or.inr ⟨after, rfl, hlog⟩))
        rcases List.mem_append.mp hmem with hold | hnew
        · exact hold
        · exact absurd (List.mem_singleton.mp hnew).symm hreenabled
  · rintro h before after hlog
    -- a stop of all at the end of the log is not followed by anything that allows starts again
    rcases concat_eq_append_cons.mp hlog with ⟨-, -, rfl⟩ | ⟨init, rfl, rfl⟩
    · rcases h with hreenabled | ⟨hon, -⟩
      · cases hreenabled
      · exact absurd rfl hon
    · rcases h with rfl | ⟨-, hallowed⟩
      · exact List.mem_append_right _ (List.mem_singleton_self _)
      · exact List.mem_append_left _ (hallowed before init rfl)

/-- The expiries that were issued are those of the timers that were started. -/
theorem mem_issued_iff : e ∈ issued log ↔ .started e ∈ log := by
  rw [issued, List.mem_filterMap]
  constructor
  · rintro ⟨o, ho, hissued⟩
    cases o with
    | started e' => exact Option.some.inj hissued ▸ ho
    | _ => cases hissued
  · exact fun h => ⟨_, h, rfl⟩

/-- Only a start that succeeds issues an expiry. -/
theorem issued_concat (hnone : ∀ e, o ≠ .started e) : issued (log ++ [o]) = issued log := by
  rw [issued, List.filterMap_append]
  cases o with
  | started e => exact absurd rfl (hnone e)
  | _ => exact List.append_nil _

theorem issued_concat_started (log : List Outcome) (e : Expiry) :
    issued (log ++ [.started e]) = issued log ++ [e] := List.filterMap_append

/-! ## The account of the timers -/

/-- Without the timer of an address the expiries of the others can still be sent. -/
theorem exists_stop (s : Suspicion) (address : String) (e : Expiry) :
    (∃ t ∈ (s.stop address).timers, t.expiry = e) ↔
      (∃ t ∈ s.timers, t.expiry = e) ∧ e.address ≠ address := by
  constructor
  · rintro ⟨t, ht, rfl⟩
    obtain ⟨hold, hother⟩ := List.mem_filter.mp ht
    exact ⟨⟨t, hold, rfl⟩, of_decide_eq_true hother⟩
  · rintro ⟨⟨t, ht, rfl⟩, hother⟩
    exact ⟨t, List.mem_filter.mpr ⟨ht, decide_eq_true hother⟩, rfl⟩

/-- The timer that a start sets. -/
def freshTimer (s : Suspicion) (now : ℕ) (m : Member) : Timer where
  address := m.address
  incarnation := m.incarnation
  generation := s.generation + 1
  due := some (now + s.timeout.ticks)

/-- A start that is allowed replaces the timer of the address and counts the generation up. -/
theorem start_of_allowed (now : ℕ) {m : Member} (hon : s.disabled = false)
    (hremote : m.address ≠ s.here) :
    s.start now m = ({ s with
      timers := (s.stop m.address).timers ++ [s.freshTimer now m]
      generation := s.generation + 1 }, true) := by
  have hallowed : ¬(s.disabled || decide (m.address = s.here)) = true := by
    rw [hon, Bool.false_or, decide_eq_true_eq]
    exact hremote
  rw [start, if_neg hallowed]
  rfl

/-- A start that is refused leaves everything as it is. -/
theorem start_of_refused (now : ℕ) {m : Member} (h : ¬(s.disabled = false ∧ m.address ≠ s.here)) :
    s.start now m = (s, false) := by
  have hrefused : (s.disabled || decide (m.address = s.here)) = true := by
    rw [Bool.or_eq_true, decide_eq_true_eq]
    by_contra hnot
    rw [not_or, Bool.not_eq_true] at hnot
    exact h hnot
  rw [start, if_pos hrefused]

/-- A timer that has run out is the same timer. -/
theorem exists_runOut (s : Suspicion) (now : ℕ) (e : Expiry) :
    (∃ t ∈ (s.runOut now).1.timers, t.expiry = e) ↔ ∃ t ∈ s.timers, t.expiry = e := by
  have hsame : ∀ t : Timer, (if t.isDue now then { t with due := none } else t).expiry = t.expiry := by
    intro t
    split <;> rfl
  constructor
  · rintro ⟨t, ht, rfl⟩
    obtain ⟨u, hu, rfl⟩ := List.mem_map.mp ht
    exact ⟨u, hu, (hsame u).symm⟩
  · rintro ⟨t, ht, rfl⟩
    exact ⟨_, List.mem_map_of_mem ht, hsame t⟩

/-- What came of all calls so far accounts for the timers. -/
structure Accounts (here : String) (log : List Outcome) (s : Suspicion) : Prop where
  own : s.here = here
  outstanding : ∀ e, (∃ t ∈ s.timers, t.expiry = e) ↔ Outstanding log e
  single : (s.timers.map Timer.address).Nodup
  remote : ∀ t ∈ s.timers, t.address ≠ here
  enabled : s.disabled = false ↔ Allowed log
  idle : s.disabled = true → s.timers = []
  numbered : s.Numbered (issued log)
  counted : s.generation = (issued log).length

/-- Without calls nothing is outstanding, and there are no timers. -/
theorem accounts_empty (here : String) (timeout : Duration) :
    Accounts here [] (empty here timeout) where
  own := rfl
  outstanding e := by
    refine iff_of_false ?_ ?_
    · rintro ⟨t, ht, -⟩
      exact List.not_mem_nil ht
    · rintro ⟨before, after, hlog, -⟩
      exact List.append_ne_nil_of_right_ne_nil before (List.cons_ne_nil _ after) hlog.symm
  single := List.nodup_nil
  remote t ht := absurd ht List.not_mem_nil
  enabled := iff_of_true rfl fun before after hlog =>
    absurd hlog.symm (List.append_ne_nil_of_right_ne_nil before (List.cons_ne_nil _ after))
  idle _ := rfl
  numbered := by
    have hnone : ∀ e, ¬Issued (issued []) (empty here timeout) e := by
      rintro e (hsent | ⟨t, ht, -⟩)
      · exact List.not_mem_nil hsent
      · exact List.not_mem_nil ht
    exact ⟨fun e he => absurd he (hnone e), fun e e' he => absurd he (hnone e)⟩
  counted := rfl

namespace Accounts

/-- A call that changes nothing. -/
theorem pass (h : Accounts here log s) (hnone : ∀ e, o ≠ .started e) (hends : ∀ a, ¬o.Ends a)
    (hon : o ≠ .reenabled) : Accounts here (log ++ [o]) s where
  own := h.own
  outstanding e := by
    rw [h.outstanding, outstanding_concat, or_iff_right (hnone e), and_iff_left (hends _)]
  single := h.single
  remote := h.remote
  enabled := by
    have hoff : o ≠ .stoppedAll := by
      rintro rfl
      exact hends "" trivial
    rw [h.enabled, allowed_concat, or_iff_right hon, and_iff_right hoff]
  idle := h.idle
  numbered := by
    rw [issued_concat hnone]
    exact h.numbered
  counted := by
    rw [issued_concat hnone]
    exact h.counted

/-- Timers that run out are still there. -/
theorem runOut (h : Accounts here log s) (now : ℕ) : Accounts here log (s.runOut now).1 where
  own := h.own
  outstanding e := (exists_runOut s now e).trans (h.outstanding e)
  single := by
    -- running out leaves each timer in its place, with the same address and number
    have hsame : (s.runOut now).1.timers.map Timer.address = s.timers.map Timer.address := by
      show (s.timers.map _).map Timer.address = _
      rw [List.map_map]
      refine List.map_congr_left fun t _ => ?_
      show (if t.isDue now then { t with due := none } else t).address = t.address
      split <;> rfl
    rw [hsame]
    exact h.single
  remote t ht := by
    obtain ⟨u, hu, hsame⟩ := (exists_runOut s now t.expiry).mp ⟨t, ht, rfl⟩
    have haddress : u.address = t.address := congrArg Expiry.address hsame
    exact haddress ▸ h.remote u hu
  enabled := h.enabled
  idle hoff := by
    show s.timers.map _ = []
    rw [h.idle hoff]
    rfl
  numbered := h.numbered.of_issued rfl fun e he => he.imp_right (exists_runOut s now e).mp
  counted := h.counted

/-- The timer of an address is ended. -/
theorem stop (h : Accounts here log s) (hnone : ∀ e, o ≠ .started e)
    (hends : ∀ a, o.Ends a ↔ address = a) (hon : o ≠ .reenabled) (hoff : o ≠ .stoppedAll) :
    Accounts here (log ++ [o]) (s.stop address) where
  own := h.own
  outstanding e := by
    rw [exists_stop, h.outstanding, outstanding_concat, or_iff_right (hnone e), hends, ne_comm]
  single := h.single.sublist (List.filter_sublist.map _)
  remote t ht := h.remote t (mem_stop ht)
  enabled := by
    show s.disabled = false ↔ _
    rw [h.enabled, allowed_concat, or_iff_right hon, and_iff_right hoff]
  idle hdisabled := by
    show s.timers.filter _ = []
    rw [h.idle hdisabled]
    rfl
  numbered := by
    rw [issued_concat hnone]
    exact h.numbered.stop address
  counted := by
    rw [issued_concat hnone]
    exact h.counted

/-- After stopping all, nothing is outstanding and nothing may start. -/
theorem stopAll (h : Accounts here log s) : Accounts here (log ++ [.stoppedAll]) s.stopAll where
  own := h.own
  outstanding e := by
    rw [outstanding_concat]
    refine iff_of_false ?_ ?_
    · rintro ⟨t, ht, -⟩
      exact List.not_mem_nil ht
    · rintro (hstarted | ⟨-, hends⟩)
      · cases hstarted
      · exact hends trivial
  single := List.nodup_nil
  remote t ht := absurd ht List.not_mem_nil
  enabled := by
    rw [allowed_concat]
    exact iff_of_false nofun fun h => h.elim nofun fun h => h.1 rfl
  idle _ := rfl
  numbered := by
    rw [issued_concat (o := .stoppedAll) (by simp)]
    refine h.numbered.of_issued rfl fun e he => he.imp_right ?_
    rintro ⟨t, ht, -⟩
    exact absurd ht List.not_mem_nil
  counted := by
    rw [issued_concat (o := .stoppedAll) (by simp)]
    exact h.counted

/-- After enabling again, starts are allowed and what was outstanding still is. -/
theorem reenable (h : Accounts here log s) : Accounts here (log ++ [.reenabled]) s.reenable where
  own := h.own
  outstanding e := by
    have hends : ¬Outcome.Ends e.address .reenabled := id
    rw [outstanding_concat, or_iff_right nofun, and_iff_left hends]
    exact h.outstanding e
  single := h.single
  remote := h.remote
  enabled := by
    rw [allowed_concat]
    exact iff_of_true rfl (Or.inl rfl)
  idle := nofun
  numbered := by
    rw [issued_concat (o := .reenabled) (by simp)]
    exact h.numbered.of_issued rfl fun _ => id
  counted := by
    rw [issued_concat (o := .reenabled) (by simp)]
    exact h.counted

/-- **A start that succeeds** ends the old timer of its address and issues the expiry of the new
    one. -/
theorem start (h : Accounts here log s) (now : ℕ) {m : Member} (hon : s.disabled = false)
    (hremote : m.address ≠ s.here) :
    Accounts here (log ++ [.started (s.freshTimer now m).expiry]) (s.start now m).1 := by
  have hnumbered := h.numbered.start now m
  rw [start_of_allowed now hon hremote] at hnumbered ⊢
  constructor
  · exact h.own
  · intro e
    -- the new timer is outstanding, and of the old ones all but that of the same address
    have hmine : (s.freshTimer now m).expiry = e ↔
        Outcome.started (s.freshTimer now m).expiry = .started e :=
      ⟨congrArg _, Outcome.started.inj⟩
    have hother : ¬Outcome.Ends e.address (.started (s.freshTimer now m).expiry) ↔
        e.address ≠ m.address := ne_comm
    rw [outstanding_concat, ← hmine, hother, ← h.outstanding, ← exists_stop]
    constructor
    · rintro ⟨t, ht, he⟩
      rcases List.mem_append.mp ht with hold | hnew
      · exact Or.inr ⟨t, hold, he⟩
      · exact Or.inl (List.mem_singleton.mp hnew ▸ he)
    · rintro (hnew | ⟨t, hold, he⟩)
      · exact ⟨_, List.mem_append_right _ (List.mem_singleton_self _), hnew⟩
      · exact ⟨t, List.mem_append_left _ hold, he⟩
  · exact nodup_map_replaced h.single (s.freshTimer now m)
  · intro t ht
    rcases List.mem_append.mp ht with hold | hnew
    · exact h.remote t (mem_stop hold)
    · rw [List.mem_singleton.mp hnew, ← h.own]
      exact hremote
  · have hon : Outcome.started (s.freshTimer now m).expiry ≠ .stoppedAll := nofun
    rw [allowed_concat, or_iff_right nofun, and_iff_right hon]
    exact h.enabled
  · exact fun hoff => Bool.noConfusion (hon.symm.trans hoff)
  · rw [issued_concat_started]
    refine hnumbered.send fun e he => ?_
    obtain rfl := List.mem_singleton.mp he
    exact ⟨_, List.mem_append_right _ (List.mem_singleton_self _), rfl⟩
  · rw [issued_concat_started, List.length_append, ← h.counted]
    rfl

/-- **One call**, whatever it is. -/
theorem step (h : Accounts here log s) (call : Call) :
    Accounts here (log ++ [(call.perform s).2]) (call.perform s).1 := by
  cases call with
  | start now m =>
      rw [Call.perform]
      by_cases hallowed : s.disabled = false ∧ m.address ≠ s.here
      · have hstarted := h.start now hallowed.1 hallowed.2
        rw [start_of_allowed now hallowed.1 hallowed.2] at hstarted ⊢
        exact hstarted
      · rw [start_of_refused now hallowed]
        exact h.pass (by simp) (fun _ => id) (by simp)
  | stop address =>
      show Accounts here (log ++ [.stopped address]) (s.stop address)
      exact h.stop (by simp) (fun _ => Iff.rfl) (by simp) (by simp)
  | stopAll => exact h.stopAll
  | reenable => exact h.reenable
  | runOut now =>
      show Accounts here (log ++ [.ranOut]) (s.runOut now).1
      exact (h.runOut now).pass (by simp) (fun _ => id) (by simp)
  | expire e =>
      rw [Call.perform, claim]
      -- an expiry counts as long as its very timer is there, and then it ends the timer
      by_cases hcounts : (s.timers.any fun t => t.address = e.address && t.generation = e.generation)
      · rw [if_pos hcounts]
        show Accounts here (log ++ [.expired e]) (s.stop e.address)
        exact h.stop (by simp) (fun _ => Iff.rfl) (by simp) (by simp)
      · rw [if_neg hcounts]
        show Accounts here (log ++ [.late e]) s
        exact h.pass (by simp) (fun _ => id) (by simp)

/-- **A run of calls.** -/
theorem serve (h : Accounts here log s) (calls : List Call) :
    Accounts here (log ++ (s.serve calls).2) (s.serve calls).1 := by
  induction calls generalizing s log with
  | nil =>
      rw [Suspicion.serve, List.append_nil]
      exact h
  | cons call rest ih =>
      have hrest := ih (h.step call)
      rw [List.append_assoc] at hrest
      exact hrest

/-- **Among the expiries that were issued those count that are outstanding**: a generation tells which
    timer has sent an expiry. -/
theorem claim_iff (h : Accounts here log s) (hissued : .started e ∈ log) :
    (s.claim e).2 = true ↔ Outstanding log e := by
  rw [← h.outstanding]
  constructor
  · exact h.numbered.exists_timer (mem_issued_iff.mpr hissued)
  · rintro ⟨t, ht, rfl⟩
    have hany : (s.timers.any fun u => u.address = t.expiry.address &&
        u.generation = t.expiry.generation) = true :=
      List.any_eq_true.mpr ⟨t, ht, Bool.and_eq_true_iff.mpr ⟨decide_eq_true rfl, decide_eq_true rfl⟩⟩
    rw [claim, if_pos hany]

/-- A start succeeds exactly when the log allows it and the member is a peer. -/
theorem start_iff (h : Accounts here log s) (now : ℕ) (m : Member) :
    (s.start now m).2 = true ↔ Allowed log ∧ m.address ≠ here := by
  rw [← h.enabled, ← h.own]
  by_cases hallowed : s.disabled = false ∧ m.address ≠ s.here
  · rw [start_of_allowed now hallowed.1 hallowed.2]
    exact iff_of_true rfl hallowed
  · rw [start_of_refused now hallowed]
    exact iff_of_false Bool.false_ne_true hallowed

end Accounts

/-- **An expiry counts exactly if nothing has ended its timer since it was started.**

    Take any calls, in any order, to the timers of a node, which have expiries claimed late, repeatedly
    or out of turn. An expiry that was issued counts exactly if it was issued by the latest start for
    its address that succeeded, and since then that address has not been stopped, no more have all, and
    no expiry for the address has counted. A start succeeds exactly if suspicion is enabled and the
    member is not the node itself. There is at most one timer for each address, none for the node
    itself, and none while suspicion is disabled. The timers are those of the outstanding expiries, and
    these are what they send when they run out. Each start that succeeds counts the generation up by
    one, so a word of 64 bits holds it in every run with fewer than `2 ^ 64` of them. -/
theorem expiry_counts_iff (here : String) (timeout : Duration) (calls : List Call) :
    let s := ((empty here timeout).serve calls).1
    let log := ((empty here timeout).serve calls).2
    (∀ e, .started e ∈ log → ((s.claim e).2 = true ↔ Outstanding log e)) ∧
      (∀ now m, (s.start now m).2 = true ↔ Allowed log ∧ m.address ≠ here) ∧
      (s.timers.map Timer.address).Nodup ∧ (∀ t ∈ s.timers, t.address ≠ here) ∧
      (¬Allowed log → s.timers = []) ∧
      (∀ e, (∃ t ∈ s.timers, t.expiry = e) ↔ Outstanding log e) ∧
      (∀ now, ∀ e ∈ (s.runOut now).2, Outstanding log e) ∧
      s.generation = (issued log).length := by
  intro s log
  have h : Accounts here log s := (accounts_empty here timeout).serve calls
  refine ⟨fun e => h.claim_iff, h.start_iff, h.single, h.remote, ?_, h.outstanding, ?_, h.counted⟩
  · intro hoff
    rw [← h.enabled, Bool.not_eq_false] at hoff
    exact h.idle hoff
  · intro now e he
    obtain ⟨t, ht, rfl⟩ := List.mem_map.mp he
    exact (h.outstanding _).mp ⟨t, (List.mem_filter.mp (List.mem_mergeSort.mp ht)).1, rfl⟩

/-- The node `a` suspects `b`. The timer runs out and is started anew before its expiry is claimed, then
    all timers are stopped, and suspicion is enabled again. Of the three expiries issued for `b` only the
    last one counts. -/
theorem expiry_counts_iff_through_restarts :
    let calls : List Call :=
      [.start 0 ⟨"b", .suspect, 5⟩, .start 1 ⟨"c", .suspect, 2⟩, .runOut 5000,
        .start 5001 ⟨"b", .suspect, 6⟩, .expire ⟨"b", 5, 1⟩, .stopAll, .start 5002 ⟨"b", .suspect, 6⟩,
        .reenable, .expire ⟨"c", 2, 2⟩, .start 6000 ⟨"b", .suspect, 7⟩, .runOut 11000]
    let s := ((empty "a" (.ofMillis 5000)).serve calls).1
    let log := ((empty "a" (.ofMillis 5000)).serve calls).2
    .started ⟨"b", 5, 1⟩ ∈ log ∧ ¬Outstanding log ⟨"b", 5, 1⟩ ∧ .started ⟨"b", 6, 3⟩ ∈ log ∧
      ¬Outstanding log ⟨"b", 6, 3⟩ ∧ .started ⟨"b", 7, 4⟩ ∈ log ∧ (s.claim ⟨"b", 7, 4⟩).2 = true := by
  intro calls s log
  have hcounts := (expiry_counts_iff "a" (.ofMillis 5000) calls).1
  have hfirst : .started ⟨"b", 5, 1⟩ ∈ log := by decide +kernel
  have hsecond : .started ⟨"b", 6, 3⟩ ∈ log := by decide +kernel
  have hlast : .started ⟨"b", 7, 4⟩ ∈ log := by decide +kernel
  have houtstanding : Outstanding log ⟨"b", 7, 4⟩ :=
    ⟨log.take 9, [.ranOut], by decide +kernel, fun o ho => List.mem_singleton.mp ho ▸ id⟩
  refine ⟨hfirst, fun h => ?_, hsecond, fun h => ?_, hlast, (hcounts _ hlast).mpr houtstanding⟩
  · exact absurd ((hcounts _ hfirst).mpr h) (by decide +kernel)
  · exact absurd ((hcounts _ hsecond).mpr h) (by decide +kernel)

end

end Suspicion

end GossipRing
