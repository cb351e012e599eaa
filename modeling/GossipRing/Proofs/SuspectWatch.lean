import GossipRing.Proofs.Standings
import GossipRing.Proofs.SuspicionTimers

/-!
# Which suspects are watched

Toward: nobody stays suspect for ever. A timer is started by the claim that makes a member suspect,
and by nothing else; while suspicion is disabled there are no timers, and when it is enabled again
nobody looks at the rows that are suspect still.

* **`Suspicion.Times`** — there is a timer for a suspect. A batch that takes effect while timers are
  allowed leaves no suspect of its own without one (`times_foldl_track`).
* **`Node.Overlooks`** — a member is suspect and has no timer. A node with suspicion enabled overlooks
  only whom it has overlooked before (`Process.Reached.overlooks_of_step`).
* **`Node.Carries`** — a suspect keeps its row and gets no timer, or its row is passed by one that
  stands above it. So it is with every step (`Process.Reached.carries_of_step`).
* **`Process.suspects_watched_iff`** — a suspect is watched exactly if suspicion has not been disabled
  while it was one, and what becomes of a suspect that is watched.
-/

open GossipRing.Membership (concerning concerning_cons_self concerning_cons_of_ne course Ascends Traced)

namespace GossipRing

namespace Membership

/-- Whatever comes after a row of a member that has not departed stands above it. -/
theorem Ascends.standing_lt {row first last : Member} {rows : List Member}
    (hrow : ¬row.status.IsDeparted) (h : Ascends (first :: rows))
    (hfirst : first = row ∨ row.standing < first.standing) (hlast : last ∈ rows) :
    row.standing < last.standing := by
  induction rows generalizing first with
  | nil => exact absurd hlast List.not_mem_nil
  | cons next rest ih =>
      obtain ⟨hnext, hrest⟩ := List.isChain_cons_cons.mp h
      have habove : row.standing < next.standing := by
        rcases hnext with hrises | ⟨hleave, htombstone, hsame⟩
        · rcases hfirst with rfl | hfirst
          · exact hrises
          · exact hfirst.trans hrises
        · -- a departure that recalls a tombstone is still worse than any row that has not departed
          rcases hfirst with rfl | hfirst
          · exact absurd (Or.inr htombstone) hrow
          · rcases Member.standing_lt_iff.mp hfirst with hnewer | ⟨hequal, -⟩
            · exact Member.standing_lt_iff.mpr (Or.inl (hsame ▸ hnewer))
            · refine Member.standing_lt_iff.mpr (Or.inr ⟨hequal.trans hsame.symm, ?_⟩)
              rw [hleave]
              revert hrow
              cases row.status <;> decide
      rcases List.mem_cons.mp hlast with rfl | hlast
      · exact habove
      · exact ih hrest (Or.inr habove) hlast

/-- Effects about a member leave a row above the one it had, or there are none. -/
theorem Traced.last_cases {address : String} {claims effects : List Change} {row first : Member}
    {last : Option Member} (h : Traced address claims (some first) effects last)
    (hrow : ¬row.status.IsDeparted) (hfirst : first = row ∨ row.standing < first.standing) :
    concerning address effects = [] ∧ last = some first ∨
      ∃ later, last = some later ∧ row.standing < later.standing := by
  have hlast := h.last
  cases hnone : (concerning address effects).getLast? with
  | none =>
      have hempty := List.getLast?_eq_none_iff.mp hnone
      refine Or.inl ⟨hempty, ?_⟩
      rw [← hlast, course, hempty]
      rfl
  | some e =>
      have hmem : e.toMember ∈ (concerning address effects).map Change.toMember :=
        List.mem_map_of_mem (List.mem_of_getLast? hnone)
      have hascends : Ascends (first :: (concerning address effects).map Change.toMember) := h.ascends
      refine Or.inr ⟨e.toMember, ?_, hascends.standing_lt hrow hfirst hmem⟩
      rw [← hlast, course, List.getLast?_append, List.getLast?_map, hnone]
      rfl

end Membership

namespace Suspicion

/-! ## Timers of suspects -/

/-- There is a timer for this suspect, running or run out. -/
def Times (s : Suspicion) (row : Member) : Prop :=
  ∃ t ∈ s.timers, t.address = row.address ∧ t.incarnation = row.incarnation

section

variable {s : Suspicion} {m : Membership} {row : Member} {c : Change} {effects : List Change}
  {now : ℕ}

/-- Stopping the timer of one address leaves the timers of all others. -/
theorem times_stop_of_ne {address : String} (h : row.address ≠ address) :
    (s.stop address).Times row ↔ s.Times row := by
  constructor
  · rintro ⟨t, ht, hsame⟩
    exact ⟨t, mem_stop ht, hsame⟩
  · rintro ⟨t, ht, habout, hinc⟩
    have hkept : t.address ≠ address := habout ▸ h
    exact ⟨t, List.mem_filter.mpr ⟨ht, decide_eq_true hkept⟩, habout, hinc⟩

/-- The timers of others are left alone. -/
theorem times_track_of_ne (h : row.address ≠ c.address) :
    (Node.track now s c).Times row ↔ s.Times row := by
  rw [Node.track]
  split
  · rw [start]
    split
    · exact Iff.rfl
    · rw [← times_stop_of_ne (s := s) h]
      constructor
      · rintro ⟨t, ht, habout, hinc⟩
        rcases List.mem_append.mp ht with hold | hnew
        · exact ⟨t, hold, habout, hinc⟩
        · obtain rfl := List.mem_singleton.mp hnew
          exact absurd habout.symm h
      · rintro ⟨t, ht, hsame⟩
        exact ⟨t, List.mem_append_left _ ht, hsame⟩
  · exact times_stop_of_ne h

/-- Tracking a batch leaves the timer of every member that the batch does not change. -/
theorem times_foldl_track_of_not_mem (h : row.address ∉ effects.map Change.address) :
    (effects.foldl (Node.track now) s).Times row ↔ s.Times row := by
  induction effects generalizing s with
  | nil => exact Iff.rfl
  | cons c rest ih =>
      rw [List.map_cons, List.mem_cons, not_or] at h
      obtain ⟨hne, hrest⟩ := h
      rw [List.foldl_cons, ih hrest, times_track_of_ne hne]

/-- **A suspicion that takes effect starts a timer**, while timers are allowed. -/
theorem times_track_self (hon : s.disabled = false) (hremote : c.address ≠ s.here)
    (hstatus : c.status = .suspect) : (Node.track now s c).Times c.toMember := by
  have hallowed : ¬(s.disabled || decide (c.toMember.address = s.here)) = true := by
    rw [hon, Bool.false_or]
    exact fun hlocal => hremote (of_decide_eq_true hlocal)
  rw [Node.track, if_pos hstatus, start, if_neg hallowed]
  exact ⟨_, List.mem_append_right _ (List.mem_singleton_self _), rfl, rfl⟩

theorem disabled_track : (Node.track now s c).disabled = s.disabled := by
  rw [Node.track]
  split
  · rw [start]
    split <;> rfl
  · rfl

theorem disabled_foldl_track : (effects.foldl (Node.track now) s).disabled = s.disabled := by
  induction effects generalizing s with
  | nil => rfl
  | cons c rest ih => rw [List.foldl_cons, ih, disabled_track]

/-- **A batch leaves no suspect of its own without a timer.** If a member is suspect after the batch,
    it has a timer, unless it was suspect before and had none. -/
theorem times_foldl_track {missed : Prop} (hon : s.disabled = false) (hremote : row.address ≠ s.here)
    (hstatus : row.status = .suspect) (h : m.row? row.address = some row → s.Times row ∨ missed)
    (hrow : (m.putAll effects).row? row.address = some row) :
    (effects.foldl (Node.track now) s).Times row ∨ missed := by
  induction effects generalizing s m with
  | nil => exact h hrow
  | cons c rest ih =>
      have hhere : (Node.track now s c).here = s.here := Node.here_foldl_track now s [c]
      refine ih (disabled_track.trans hon) (hhere ▸ hremote) (fun hrecorded => ?_) hrow
      rw [Membership.row?_put] at hrecorded
      split at hrecorded
      · next habout =>
        -- the claim is about this member, and leaves it as it is in the end
        obtain rfl := Option.some.inj hrecorded
        exact Or.inl (times_track_self hon hremote hstatus)
      · next hother => exact (h hrecorded).imp_left (times_track_of_ne hother).mpr

/-- A timer that a batch leaves was there, or has yet to run out. -/
theorem mem_foldl_track_of_run_out {t : Timer} (hout : t.due = none)
    (ht : t ∈ (effects.foldl (Node.track now) s).timers) : t ∈ s.timers := by
  induction effects generalizing s with
  | nil => exact ht
  | cons c rest ih =>
      have ht : t ∈ (Node.track now s c).timers := ih ht
      rw [Node.track] at ht
      split at ht
      · rw [start] at ht
        split at ht
        · exact ht
        · rcases List.mem_append.mp ht with hold | hnew
          · exact mem_stop hold
          · obtain rfl := List.mem_singleton.mp hnew
            cases hout
      · exact mem_stop ht

end

end Suspicion

namespace Node

/-! ## Suspects of a node -/

/-- Another member is suspect, as this row says. -/
structure Suspects (n : Node) (row : Member) : Prop where
  recorded : n.membership.row? row.address = some row
  remote : row.address ≠ n.address
  status : row.status = .suspect

/-- A member is suspect and has no timer. -/
structure Overlooks (n : Node) (row : Member) : Prop where
  suspects : n.Suspects row
  untimed : ¬n.suspicion.Times row

/-- The member has a row that stands above this one. -/
def Passed (n : Node) (row : Member) : Prop :=
  ∃ later, n.membership.row? row.address = some later ∧ row.standing < later.standing

/-- Whoever has the row keeps it and gets no timer for it, or passes it. -/
structure Carries (row : Member) (n n' : Node) : Prop where
  passed : n.Passed row → n'.Passed row
  recorded : n.membership.row? row.address = some row →
    n'.membership.row? row.address = some row ∧ (n'.suspicion.Times row → n.suspicion.Times row) ∨
      n'.Passed row

section

variable {now : Moment} {n n' n₁ : Node} {row : Member} {effects : List Change}

/-- A row that was passed is not recorded any more, since nothing overrides itself. -/
theorem Passed.not_recorded (h : n.Passed row) : n.membership.row? row.address ≠ some row := by
  obtain ⟨later, hlater, habove⟩ := h
  rw [hlater]
  intro hsame
  rw [Option.some.inj hsame] at habove
  exact lt_irrefl _ habove

namespace Carries

theorem refl (row : Member) (n : Node) : Carries row n n := ⟨id, fun h => Or.inl ⟨h, id⟩⟩

theorem trans (h : Carries row n n₁) (h' : Carries row n₁ n') : Carries row n n' where
  passed := h'.passed ∘ h.passed
  recorded hrow := by
    rcases h.recorded hrow with ⟨hkept, htimes⟩ | hpassed
    · exact (h'.recorded hkept).imp_left fun ⟨hlast, htimes'⟩ => ⟨hlast, htimes ∘ htimes'⟩
    · exact Or.inr (h'.passed hpassed)

/-- A step that leaves the table alone and starts no timer. -/
theorem aside (row : Member) (h : Aside n n') : Carries row n n' where
  passed hpassed := by
    rw [Passed, h.membership]
    exact hpassed
  recorded hrow := by
    refine Or.inl ⟨h.membership ▸ hrow, ?_⟩
    rintro ⟨t, ht, habout, hinc⟩
    obtain ⟨u, hu, hsame⟩ := h.timers t ht
    exact ⟨u, hu, (congrArg Expiry.address hsame).trans habout,
      (congrArg Expiry.incarnation hsame).trans hinc⟩

/-- **Claims that reach precedence pass the row of a suspect, or leave it and its timer alone.** -/
theorem settle (op : Membership.Op) (hop : op.RespectsGate)
    (hremote : row.address ≠ n.membership.here) (hstatus : row.status = .suspect)
    (h : n.settle now (op.apply now.wall n.membership) = .done n' effects) : Carries row n n' := by
  obtain ⟨m, happly, rfl⟩ := settle_eq_done h
  have hpresent : ¬row.status.IsDeparted := by
    rw [hstatus]
    decide
  -- the row of the member is traced, so it is kept or somebody has overridden it
  obtain ⟨claims, htraced⟩ : ∃ claims, Traced row.address claims (n.membership.row? row.address)
      effects (m.row? row.address) := by
    rcases op.apply_cases happly with ⟨snapshots, rfl, -⟩ | ⟨m₁, happlied, halike⟩
    · exact absurd rfl hop.not_adopt
    · exact ⟨_, halike.row? row.address ▸ happlied.traced hremote⟩
  constructor
  · rintro ⟨first, hfirst, habove⟩
    rw [hfirst] at htraced
    rw [Passed, membership_spread]
    rcases htraced.last_cases hpresent (Or.inr habove) with ⟨-, hsame⟩ | hpassed
    · exact ⟨first, hsame, habove⟩
    · exact hpassed
  · intro hrow
    rw [hrow] at htraced
    rw [Passed, membership_spread, suspicion_spread]
    refine (htraced.last_cases hpresent (Or.inl rfl)).imp_left fun ⟨hnone, hsame⟩ => ⟨hsame, ?_⟩
    have hothers : row.address ∉ effects.map Change.address := by
      intro hmem
      obtain ⟨e, he, habout⟩ := List.mem_map.mp hmem
      have hconcerns : e ∈ concerning row.address effects :=
        List.mem_filter.mpr ⟨he, decide_eq_true habout⟩
      rw [hnone] at hconcerns
      exact List.not_mem_nil hconcerns
    exact (Suspicion.times_foldl_track_of_not_mem hothers).mp

theorem heeds (h : Heeds now n n') (hremote : row.address ≠ n.membership.here)
    (hstatus : row.status = .suspect) : Carries row n n' := by
  rcases h with rfl | ⟨op, effects, hop, hsettle⟩
  · exact refl row n'
  · exact settle op hop hremote hstatus hsettle

end Carries

/-! ## Whom a node overlooks -/

/-- **Claims that take effect while suspicion is enabled overlook nobody anew.** -/
theorem overlooks_of_settle (op : Membership.Op) (hhere : n.suspicion.here = n.address)
    (hon : n.suspicion.disabled = false)
    (h : n.settle now (op.apply now.wall n.membership) = .done n' effects)
    (hover : n'.Overlooks row) : n.Overlooks row := by
  obtain ⟨m, happly, rfl⟩ := settle_eq_done h
  obtain ⟨⟨hrow, hremote, hstatus⟩, huntimed⟩ := hover
  rw [membership_spread] at hrow
  rw [address_spread] at hremote
  rw [suspicion_spread] at huntimed
  have hrecorded : (n.membership.putAll effects).row? row.address = some row := by
    rw [← (op.alike_putAll happly).row?]
    exact hrow
  have hbefore : n.membership.row? row.address = some row →
      n.suspicion.Times row ∨ n.Overlooks row := by
    intro hold
    by_cases htimes : n.suspicion.Times row
    · exact Or.inl htimes
    · exact Or.inr ⟨⟨hold, hremote, hstatus⟩, htimes⟩
  have hafter : (effects.foldl (track now.elapsed) n.suspicion).Times row ∨ n.Overlooks row :=
    Suspicion.times_foldl_track hon (hhere.symm ▸ hremote) hstatus hbefore hrecorded
  exact hafter.resolve_left huntimed

/-- While suspicion is on, heeding claims overlooks no suspect row that was watched before. -/
theorem overlooks_of_heeds (h : Heeds now n n') (hhere : n.suspicion.here = n.address)
    (hon : n.suspicion.disabled = false) (hover : n'.Overlooks row) : n.Overlooks row := by
  rcases h with rfl | ⟨op, effects, -, hsettle⟩
  · exact hover
  · exact overlooks_of_settle op hhere hon hsettle hover

theorem disabled_settle {outcome : Attempt Membership (List Change)}
    (h : n.settle now outcome = .done n' effects) : n'.suspicion.disabled = n.suspicion.disabled := by
  obtain ⟨m, -, rfl⟩ := settle_eq_done h
  rw [suspicion_spread, Suspicion.disabled_foldl_track]

theorem Heeds.disabled (h : Heeds now n n') : n'.suspicion.disabled = n.suspicion.disabled := by
  rcases h with rfl | ⟨op, effects, -, hsettle⟩
  · rfl
  · exact disabled_settle hsettle

/-- A suspect with a timer has one after the step as well. -/
theorem Overlooks.of_times (hover : n'.Overlooks row) (haddress : n'.address = n.address)
    (htable : n'.membership = n.membership)
    (htimes : n.suspicion.Times row → n'.suspicion.Times row) : n.Overlooks row where
  suspects := by
    obtain ⟨⟨hrow, hremote, hstatus⟩, -⟩ := hover
    exact ⟨htable ▸ hrow, haddress ▸ hremote, hstatus⟩
  untimed := mt htimes hover.untimed

/-- A node whose suspicion is on after it rested has kept its timers. -/
theorem Rests.suspicion_of_enabled (h : Rests n n') (hon : n'.suspicion.disabled = false) :
    ∃ timeout, n'.suspicion = { n.suspicion with timeout := timeout } := by
  refine h.suspicion.resolve_left fun hstopped => ?_
  rw [hstopped] at hon
  cases hon

/-! ### Coming back -/

/-- Claims of a node that it is alive are about nobody else. -/
theorem address_of_assert_here {inc : UInt64}
    (h : n.assert now n.membership.here .alive inc = .done n' effects) {e : Change} (he : e ∈ effects) :
    e.address = n.membership.here := by
  rw [assert] at h
  rcases n.membership.assert_here now.wall inc with hsame | hput
  · rw [hsame] at h
    obtain ⟨-, rfl⟩ := Attempt.done.inj h
    exact absurd he List.not_mem_nil
  · rw [hput] at h
    obtain ⟨-, rfl⟩ := Attempt.done.inj h
    rw [List.mem_singleton.mp he]
    rfl

/-- A return that is not refused is the node's claim to be alive, after which timers are allowed. -/
theorem rejoin_eq_done {outcome : Except NodeError Unit} (h : n.rejoin now = .done n' outcome) :
    n' = n ∨ ∃ inc effects n₁, n.assert now n.membership.here .alive inc = .done n₁ effects ∧
      n'.address = n₁.address ∧ n'.membership = n₁.membership ∧
      n'.suspicion = n₁.suspicion.reenable := by
  rcases n.rejoin_cases now with ⟨e, hrefused⟩ | ⟨-, hstop⟩ | ⟨own, inc, hown, hrejoin⟩
  · exact Or.inl (Attempt.done.inj (hrefused.symm.trans h)).1.symm
  · cases hstop.symm.trans h
  · obtain ⟨n₁, effects, hassert, hlast⟩ := Attempt.andThen_eq_done (hrejoin.symm.trans h)
    obtain ⟨rfl, -⟩ := Attempt.done.inj hlast
    have hlocal : own.address = n.membership.here :=
      (Membership.mem_of_row?_eq_some (ownRow_eq_ok hown)).2
    rw [hlocal] at hassert
    refine Or.inr ⟨inc, effects, n₁, hassert, ?_⟩
    rw [startGossip]
    split <;> exact ⟨rfl, rfl, rfl⟩

/-- A node that comes back overlooks whom it has overlooked, and nobody else. -/
theorem overlooks_of_rejoin (hhere : n.membership.here = n.address) {outcome : Except NodeError Unit}
    (h : n.rejoin now = .done n' outcome) (hover : n'.Overlooks row) : n.Overlooks row := by
  rcases rejoin_eq_done h with rfl | ⟨inc, effects, n₁, hassert, haddress, htable, hsuspicion⟩
  · exact hover
  · obtain ⟨⟨hrow, hremote, hstatus⟩, huntimed⟩ := hover
    have hown : ∀ e ∈ effects, e.address = n.membership.here :=
      fun e he => address_of_assert_here hassert he
    obtain ⟨m, happly, rfl⟩ := settle_eq_done hassert
    rw [haddress, address_spread] at hremote
    rw [htable, membership_spread] at hrow
    rw [hsuspicion, suspicion_spread] at huntimed
    -- rejoining changes the node's own row, which is never the suspect one
    have hothers : row.address ∉ effects.map Change.address := by
      intro hmem
      obtain ⟨e, he, habout⟩ := List.mem_map.mp hmem
      exact hremote (habout.symm.trans ((hown e he).trans hhere))
    have hreported := Membership.reported_assert n.membership now.wall n.membership.here .alive inc
    rw [happly] at hreported
    refine ⟨⟨?_, hremote, hstatus⟩, fun htimes => huntimed ?_⟩
    · rw [← hreported.row?_of_not_mem hothers]
      exact hrow
    · exact (Suspicion.times_foldl_track_of_not_mem hothers).mpr htimes

end

end Node

namespace Suspicion

variable {s : Suspicion} {row : Member} {e : Expiry}

/-- An expiry that is claimed leaves the timers of others alone. -/
theorem times_claim_of_ne (h : row.address ≠ e.address) : (s.claim e).1.Times row ↔ s.Times row := by
  rw [claim]
  split
  · exact times_stop_of_ne h
  · exact Iff.rfl

/-- A timer that runs out is still there until its expiry is handled. -/
theorem times_runOut (now : ℕ) (h : s.Times row) : (s.runOut now).1.Times row := by
  obtain ⟨t, ht, hsame⟩ := h
  refine ⟨_, List.mem_map_of_mem ht, ?_⟩
  split <;> exact hsame

/-- A timer that runs out still counts. -/
theorem counts_runOut (now : ℕ) {t : Timer} (ht : t ∈ s.timers) :
    ((s.runOut now).1.claim t.expiry).2 = true := by
  have hfound : ((s.runOut now).1.timers.any fun u =>
      u.address = t.expiry.address && u.generation = t.expiry.generation) = true := by
    refine List.any_eq_true.mpr ⟨_, List.mem_map_of_mem ht, ?_⟩
    split
    all_goals
      rw [Bool.and_eq_true]
      exact ⟨decide_eq_true rfl, decide_eq_true rfl⟩
  rw [claim, if_pos hfound]

/-- A timer that is due sends its expiry. -/
theorem mem_expiries_of_due {now due : ℕ} {t : Timer} (ht : t ∈ s.timers) (hdue : t.due = some due)
    (hle : due ≤ now) : t.expiry ∈ (s.runOut now).2 := by
  have hnow : t.isDue now = true := by
    rw [Timer.isDue, hdue]
    exact decide_eq_true hle
  exact List.mem_map_of_mem (List.mem_mergeSort.mpr (List.mem_filter.mpr ⟨ht, hnow⟩))

end Suspicion

/-! ## Every step -/

namespace Process

open Node (Carries Passed Suspects Overlooks)

variable {now : Moment} {p q : Process} {act : Act} {acts : List (Moment × Act)} {row : Member}

/-- **Whoever has suspicion enabled has overlooked before whom it overlooks.** -/
theorem Reached.overlooks_of_step (hp : p.Reached) (h : Step now p q)
    (hon : q.node.suspicion.disabled = false) (hover : q.node.Overlooks row) :
    p.node.Overlooks row := by
  have hhere := hp.watchful.here
  cases h with
  | idle => exact hover
  | @move move n hperform =>
      by_cases hmove : move = .rejoin
      · subst hmove
        obtain ⟨outcome, hrejoin, -⟩ := Attempt.map_eq_done hperform
        exact Node.overlooks_of_rejoin hp.orderly.here hrejoin hover
      · obtain ⟨n₁, hheeds, hrests, -⟩ := Node.perform_rests hmove hperform
        have hon : n.suspicion.disabled = false := hon
        have hover : n.Overlooks row := hover
        obtain ⟨timeout, hsame⟩ := hrests.suspicion_of_enabled hon
        rw [hsame] at hon
        have hbefore : n₁.Overlooks row := by
          refine hover.of_times hrests.address hrests.membership fun htimes => ?_
          rw [hsame]
          exact htimes
        exact Node.overlooks_of_heeds hheeds hhere (hheeds.disabled.symm.trans hon) hbefore
  | enter => exact hover.of_times rfl rfl id
  | announce _ hassert =>
      have hbefore : p.node.suspicion.disabled = false := (Node.disabled_settle hassert).symm.trans hon
      exact Node.overlooks_of_settle (.assert p.node.address .alive _) hhere hbefore hassert hover
  | fail => exact hover.of_times rfl rfl id
  | @complete _ snapshots _ _ _ hcomplete =>
      -- what the hosts sent and what was held back take effect one after the other
      have hadopt := p.node.settle_adopt now snapshots
      have hhere' := (hp.watchful.settle (.adopt snapshots) hadopt).here
      have hmiddle := (Node.disabled_settle hcomplete).symm.trans hon
      have hbefore := (Node.disabled_settle hadopt).symm.trans hmiddle
      exact Node.overlooks_of_settle (.adopt snapshots) hhere hbefore hadopt
        (Node.overlooks_of_settle .openGate hhere' hmiddle hcomplete hover)
  | runOut => exact hover.of_times rfl rfl (Suspicion.times_runOut now.elapsed)
  | @expire e n effects hsent hcounts hassert =>
      have hexpire : p.node.expire now e = .done n effects := by
        rw [Node.expire]
        dsimp only
        rw [hcounts, if_pos rfl]
        exact hassert
      obtain ⟨-, n', effects', hexpire', hfaulty, -⟩ := hp.timersSound.counting now e hsent hcounts
      obtain ⟨rfl, -⟩ := Attempt.done.inj (hexpire.symm.trans hexpire')
      have hother : row.address ≠ e.address := by
        intro habout
        have hrow := hover.suspects.recorded
        rw [habout] at hrow
        have hsame := Option.some.inj (hrow.symm.trans hfaulty)
        have hstatus := hover.suspects.status
        rw [hsame] at hstatus
        cases hstatus
      have hclaimed : Node.Aside p.node { p.node with suspicion := (p.node.suspicion.claim e).1 } :=
        .claim p.node e
      have hon : ({ p.node with suspicion := (p.node.suspicion.claim e).1 } : Node).suspicion.disabled =
        false := (Node.disabled_settle hassert).symm.trans hon
      have hbefore := Node.overlooks_of_settle (.assert e.address .faulty e.incarnation)
        (hclaimed.here.trans hhere) hon hassert hover
      exact hbefore.of_times rfl rfl (Suspicion.times_claim_of_ne hother).mpr

/-- **Every step leaves a suspect its row without a new timer, or passes it.** -/
theorem Reached.carries_of_step (hp : p.Reached) (hremote : row.address ≠ p.node.membership.here)
    (hstatus : row.status = .suspect) (h : Step now p q) : Carries row p.node q.node := by
  cases h with
  | idle => exact .refl row p.node
  | move hperform =>
      obtain ⟨n₁, hheeds, haside, -⟩ := Node.perform_cases hperform
      exact (Carries.heeds hheeds hremote hstatus).trans (.aside row haside)
  | enter => exact .aside row (.of_eq rfl rfl rfl)
  | announce _ hassert => exact .settle (.assert p.node.address .alive _) trivial hremote hstatus hassert
  | fail => exact .aside row (.of_eq rfl rfl rfl)
  | @complete call snapshots n effects hjoining _ =>
      -- a node that has not joined knows nobody else
      have hclosed : p.node.membership.isReady = false := by
        have houtside : p.calls call ≠ .outside := by
          rw [hjoining]
          decide
        have hjoined : p.calls call ≠ .joined := by
          rw [hjoining]
          decide
        exact hp.orderly.closed houtside hjoined
      have hnobody : ∀ found, p.node.membership.row? row.address ≠ some found := by
        intro found hfound
        obtain ⟨hmem, haddress⟩ := Membership.mem_of_row?_eq_some hfound
        exact hremote (haddress.symm.trans (hp.orderly.secluded hclosed found hmem))
      exact ⟨fun ⟨later, hlater, _⟩ => absurd hlater (hnobody later),
        fun hrow => absurd hrow (hnobody row)⟩
  | runOut => exact .aside row (.runOut p.node now)
  | @expire e _ _ _ _ hassert =>
      have hclaimed : Carries row p.node { p.node with suspicion := (p.node.suspicion.claim e).1 } :=
        .aside row (.claim p.node e)
      exact hclaimed.trans
        (.settle (.assert e.address .faulty e.incarnation) trivial hremote hstatus hassert)

/-- **So does every run.** -/
theorem Reached.carries_of_run (hp : p.Reached) (hremote : row.address ≠ p.node.membership.here)
    (hstatus : row.status = .suspect) (hrun : p.run acts = .done q ()) :
    Carries row p.node q.node := by
  induction acts generalizing p with
  | nil =>
      obtain ⟨rfl, -⟩ := Attempt.done.inj hrun
      exact .refl row p.node
  | cons entry rest ih =>
      obtain ⟨now, act⟩ := entry
      rw [Process.run] at hrun
      obtain ⟨p₁, out, hact, hrest⟩ := Attempt.andThen_eq_done hrun
      have hfirst : p.run [(now, act)] = .done p₁ () := by
        rw [Process.run, hact]
        rfl
      have hremote₁ : row.address ≠ p₁.node.membership.here := by
        rw [(here_hash_run hfirst).1]
        exact hremote
      exact (hp.carries_of_step hremote hstatus (step_of_perform hact)).trans
        (ih (hp.run hfirst) hremote₁ hrest)

/-- **Whom a node overlooks it has known while suspicion was disabled.** -/
theorem exists_disabled_of_overlooks {hash : HashFunction} {address : String} {settings : Settings}
    {chance : Chance} {node : Node}
    (hnode : Node.createWith hash address settings chance = .ok node)
    (hrun : (start node).run acts = .done p ()) (hover : p.node.Overlooks row) :
    ∃ first rest q, acts = first ++ rest ∧ (start node).run first = .done q () ∧
      q.node.membership.row? row.address = some row ∧ q.node.suspicion.disabled = true := by
  -- on the run from its end: back to the act after which nobody was disabled any more
  induction acts using List.reverseRecOn generalizing p with
  | nil =>
      obtain ⟨rfl, -⟩ := Attempt.done.inj hrun
      have hrow : node.membership.row? row.address = some row := hover.suspects.recorded
      rw [(Node.createWith_eq hnode).2.1] at hrow
      cases hrow
  | append_singleton acts entry ih =>
      obtain ⟨now, act⟩ := entry
      cases hon : p.node.suspicion.disabled with
      | true =>
          exact ⟨acts ++ [(now, act)], [], p, (List.append_nil _).symm, hrun,
            hover.suspects.recorded, hon⟩
      | false =>
          rw [run_append] at hrun
          obtain ⟨p₁, out, hbefore, hlast⟩ := Attempt.andThen_eq_done hrun
          rw [run] at hlast
          obtain ⟨p₂, out', hact, hnil⟩ := Attempt.andThen_eq_done hlast
          obtain ⟨rfl, -⟩ := Attempt.done.inj hnil
          have hreached : p₁.Reached := ⟨hash, address, settings, chance, node, acts, hnode, hbefore⟩
          obtain ⟨first, rest, q, rfl, hfirst, hrow, hoff⟩ :=
            ih hbefore (hreached.overlooks_of_step (step_of_perform hact) hon hover)
          exact ⟨first, rest ++ [(now, act)], q, List.append_assoc _ _ _, hfirst, hrow, hoff⟩

/-! ## What a timer leads to -/

/-- Every timer that has run out has sent its expiry. -/
def Rung (p : Process) : Prop :=
  ∀ t ∈ p.node.suspicion.timers, t.due = none → t.expiry ∈ p.sent

/-- What timers a batch leaves, and have run out, were there before. -/
theorem mem_of_settle {n n' : Node} {effects : List Change} {outcome : Attempt Membership (List Change)}
    (h : n.settle now outcome = .done n' effects) {t : Timer} (ht : t ∈ n'.suspicion.timers)
    (hout : t.due = none) : t ∈ n.suspicion.timers := by
  obtain ⟨m, -, rfl⟩ := Node.settle_eq_done h
  rw [Node.suspicion_spread] at ht
  exact Suspicion.mem_foldl_track_of_run_out hout ht

/-- A timer that has run out has rung, whatever the process does next. -/
theorem Rung.step (hp : Rung p) (h : Step now p q) : Rung q := by
  cases h with
  | idle => exact hp
  | @move move n hperform =>
      intro t ht hout
      have ht : t ∈ n.suspicion.timers := ht
      -- rejoining alone is not a rest, as it switches suspicion on again
      by_cases hmove : move = .rejoin
      · subst hmove
        obtain ⟨outcome, hrejoin, -⟩ := Attempt.map_eq_done hperform
        rcases Node.rejoin_eq_done hrejoin with rfl | ⟨inc, effects, n₁, hassert, -, -, hsuspicion⟩
        · exact hp t ht hout
        · rw [hsuspicion] at ht
          exact hp t (mem_of_settle hassert ht hout) hout
      · obtain ⟨n₁, hheeds, hrests, -⟩ := Node.perform_rests hmove hperform
        have hold : t ∈ n₁.suspicion.timers := by
          rcases hrests.suspicion with hstopped | ⟨timeout, hsame⟩
          · rw [hstopped] at ht
            exact absurd ht List.not_mem_nil
          · rw [hsame] at ht
            exact ht
        rcases hheeds with rfl | ⟨op, effects, -, hsettle⟩
        · exact hp t hold hout
        · exact hp t (mem_of_settle hsettle hold hout) hout
  | enter => exact hp
  | announce _ hassert => exact fun t ht hout => hp t (mem_of_settle hassert ht hout) hout
  | fail => exact hp
  | @complete _ snapshots _ _ _ hcomplete =>
      have hadopt := p.node.settle_adopt now snapshots
      exact fun t ht hout =>
        hp t (mem_of_settle hadopt (mem_of_settle hcomplete ht hout) hout) hout
  | runOut =>
      intro t ht hout
      obtain ⟨u, hu, rfl⟩ := List.mem_map.mp ht
      by_cases hdue : u.isDue now.elapsed
      · have hsent : u.expiry ∈ (p.node.runOut now).2 :=
          List.mem_map_of_mem (List.mem_mergeSort.mpr (List.mem_filter.mpr ⟨hu, hdue⟩))
        rw [if_pos hdue]
        exact List.mem_append_right _ hsent
      · rw [if_neg hdue] at hout ⊢
        exact List.mem_append_left _ (hp u hu hout)
  | expire _ _ hassert =>
      exact fun t ht hout => hp t (Suspicion.mem_claim (mem_of_settle hassert ht hout)) hout

/-- A run keeps that all timers which have run out have rung. -/
theorem Rung.run (hp : Rung p) (hrun : p.run acts = .done q ()) : Rung q := by
  induction acts generalizing p with
  | nil =>
      obtain ⟨rfl, -⟩ := Attempt.done.inj hrun
      exact hp
  | cons entry rest ih =>
      obtain ⟨now, act⟩ := entry
      rw [Process.run] at hrun
      obtain ⟨p₁, out, hact, hrest⟩ := Attempt.andThen_eq_done hrun
      exact ih (hp.step (step_of_perform hact)) hrest

/-- In every process that has been reached, a timer that has run out has rung. -/
theorem Reached.rung (hp : p.Reached) : Rung p := by
  obtain ⟨hash, address, settings, chance, n, acts, hnode, hrun⟩ := hp
  refine Rung.run (fun t ht => ?_) hrun
  have ht : t ∈ n.suspicion.timers := ht
  rw [(Node.createWith_eq hnode).2.2] at ht
  exact absurd ht List.not_mem_nil

/-- From some time on, once timers have run out and this expiry has been taken in, the member is
    faulty at the incarnation at which it was suspected. -/
def Fires (p : Process) (row : Member) (e : Expiry) : Prop :=
  ∃ due, ∀ now later : Moment, due ≤ now.elapsed →
    ∃ q, p.run [(now, .runOut), (later, .expire e)] = .done q () ∧
      q.node.membership.row? row.address = some { row with status := .faulty }

/-- **A timer makes its suspect faulty**, if nothing comes in between. -/
theorem Reached.fires (hp : p.Reached) (htimes : p.node.suspicion.Times row) :
    ∃ e : Expiry, e.address = row.address ∧ e.incarnation = row.incarnation ∧ p.Fires row e := by
  obtain ⟨t, ht, habout, hinc⟩ := htimes
  refine ⟨t.expiry, habout, hinc, t.due.getD 0, fun now later hdue => ?_⟩
  have hrunOut : p.run [(now, .runOut)] = .done
      { p with node := (p.node.runOut now).1, sent := p.sent ++ (p.node.runOut now).2 } () := rfl
  -- a timer that has run out before has sent its expiry then, any other one sends it now
  have hsent : t.expiry ∈ p.sent ++ (p.node.runOut now).2 := by
    cases htime : t.due with
    | none => exact List.mem_append_left _ (hp.rung t ht htime)
    | some due =>
        rw [htime] at hdue
        exact List.mem_append_right _ (Suspicion.mem_expiries_of_due ht htime hdue)
  obtain ⟨-, n, effects, hexpire, hfaulty, -⟩ := (hp.run hrunOut).timersSound.counting later t.expiry
    hsent (Suspicion.counts_runOut now.elapsed ht)
  have hclaimed : Process.run
      { p with node := (p.node.runOut now).1, sent := p.sent ++ (p.node.runOut now).2 }
      [(later, .expire t.expiry)] = .done (withNode
        { p with node := (p.node.runOut now).1, sent := p.sent ++ (p.node.runOut now).2 } n) () := by
    rw [Process.run, Act.perform, if_pos hsent, hexpire]
    rfl
  refine ⟨_, hclaimed, ?_⟩
  rw [← habout, ← hinc]
  exact hfaulty

/-- **A suspect is watched exactly if suspicion was not disabled while it was one.**

    Take any run of a new node, and another member whose row is suspect after it. The member has a
    timer exactly if at no point of the run the row was there already and suspicion was disabled. Its
    timer makes it faulty, if nothing comes in between; and whatever comes, the row stays until one
    comes that stands above it, and does not come back.

    A run that is not completed stops at the largest incarnation, in one of its acts. -/
theorem suspects_watched_iff {hash : HashFunction} {address : String} {settings : Settings}
    {chance : Chance} {node : Node}
    (hnode : Node.createWith hash address settings chance = .ok node) (acts : List (Moment × Act)) :
    (∀ p, (start node).run acts = .done p () → ∀ row, p.node.Suspects row →
      (p.node.suspicion.Times row ↔
        ∀ first rest q, acts = first ++ rest → (start node).run first = .done q () →
          q.node.membership.row? row.address = some row → q.node.suspicion.disabled = false) ∧
      (p.node.suspicion.Times row →
        ∃ e : Expiry, e.address = row.address ∧ e.incarnation = row.incarnation ∧ p.Fires row e) ∧
      ∀ more q, p.run more = .done q () →
        q.node.membership.row? row.address = some row ∨ q.node.Passed row) ∧
    (∀ p, (start node).run acts = .exhausted p →
      p.node.membership.localIncarnation = Membership.lastIncarnation ∧
      ∃ first now act rest before, acts = first ++ (now, act) :: rest ∧
        (start node).run first = .done before () ∧ act.perform now before = .exhausted p) := by
  constructor
  · intro p hrun row hsuspects
    have hp : p.Reached := ⟨hash, address, settings, chance, node, acts, hnode, hrun⟩
    have hremote : row.address ≠ p.node.membership.here := hp.orderly.here ▸ hsuspects.remote
    refine ⟨⟨?_, ?_⟩, hp.fires, ?_⟩
    · rintro htimes first rest q rfl hfirst hrow
      have hq : q.Reached := ⟨hash, address, settings, chance, node, first, hnode, hfirst⟩
      rw [run_append, hfirst, Attempt.andThen_done] at hrun
      rw [(here_hash_run hrun).1] at hremote
      -- a node with suspicion disabled has no timers, and a suspect gets none later on
      rw [← Bool.not_eq_true]
      intro hoff
      rcases (hq.carries_of_run hremote hsuspects.status hrun).recorded hrow with
        ⟨-, hbefore⟩ | hpassed
      · obtain ⟨t, ht, -⟩ := hbefore htimes
        rw [hq.watchful.backed.disabled hoff] at ht
        exact List.not_mem_nil ht
      · exact hpassed.not_recorded hsuspects.recorded
    · intro hnever
      by_contra huntimed
      obtain ⟨first, rest, q, hacts, hfirst, hrow, hoff⟩ :=
        exists_disabled_of_overlooks hnode hrun ⟨hsuspects, huntimed⟩
      exact absurd ((hnever first rest q hacts hfirst hrow).symm.trans hoff) Bool.false_ne_true
    · intro more q hmore
      exact ((hp.carries_of_run hremote hsuspects.status hmore).recorded hsuspects.recorded).imp_left
        And.left
  · intro p hrun
    exact run_eq_exhausted hrun

/-- The node `a` hears that `b` is suspect. From some time on the timer of `b` makes it faulty. -/
theorem suspects_watched_iff_after_suspicion :
    ∃ node p,
      Node.createWith hash32 "a" { Settings.default with replicaPoints := 2 } .none = .ok node ∧
      (start node).run
        [(⟨7, 0⟩, .enter 0), (⟨7, 0⟩, .announce 0),
          (⟨8, 1⟩, .complete 0 [⟨some 1, [⟨"b", .alive, 5, "b", 5, 7⟩]⟩]),
          (⟨9, 10⟩, .move (.absorb [⟨"b", .suspect, 5, "c", 1, 8⟩]))] = .done p () ∧
      p.node.Suspects ⟨"b", .suspect, 5⟩ ∧
      ∃ e : Expiry, e.address = "b" ∧ e.incarnation = 5 ∧ p.Fires ⟨"b", .suspect, 5⟩ e := by
  have hnode : Node.createWith hash32 "a" { Settings.default with replicaPoints := 2 } .none =
      .ok _ := rfl
  have hwatched := ((suspects_watched_iff hnode
    [(⟨7, 0⟩, .enter 0), (⟨7, 0⟩, .announce 0),
      (⟨8, 1⟩, .complete 0 [⟨some 1, [⟨"b", .alive, 5, "b", 5, 7⟩]⟩]),
      (⟨9, 10⟩, .move (.absorb [⟨"b", .suspect, 5, "c", 1, 8⟩]))]).1 _
    (Attempt.eq_done_of_result? (by decide +kernel)) ⟨"b", .suspect, 5⟩
    ⟨by decide +kernel, by decide +kernel, rfl⟩).2.1
  refine ⟨_, _, hnode, Attempt.eq_done_of_result? ?_, ⟨?_, ?_, rfl⟩,
    hwatched ⟨⟨"b", 5, 1, some 5010⟩, ?_, rfl, rfl⟩⟩
  all_goals decide +kernel

/-- The node `a` suspects `b`, leaves and comes back: suspicion is enabled again, and `b` is suspect
    still, but has no timer. -/
theorem suspect_overlooked_after_return :
    ∃ node p,
      Node.createWith hash32 "a" { Settings.default with replicaPoints := 2 } .none = .ok node ∧
      (start node).run
        [(⟨7, 0⟩, .enter 0), (⟨7, 0⟩, .announce 0),
          (⟨8, 1⟩, .complete 0 [⟨some 1, [⟨"b", .alive, 5, "b", 5, 7⟩]⟩]),
          (⟨9, 10⟩, .move (.absorb [⟨"b", .suspect, 5, "c", 1, 8⟩])), (⟨10, 20⟩, .move .leave),
          (⟨11, 30⟩, .move .rejoin)] = .done p () ∧
      p.node.suspicion.disabled = false ∧ p.node.Suspects ⟨"b", .suspect, 5⟩ ∧
      p.node.suspicion.isSuspected "b" = false := by
  have hnode : Node.createWith hash32 "a" { Settings.default with replicaPoints := 2 } .none =
      .ok _ := rfl
  refine ⟨_, _, hnode, Attempt.eq_done_of_result? ?_, ?_, ⟨?_, ?_, rfl⟩, ?_⟩
  all_goals decide +kernel

end Process

end GossipRing
