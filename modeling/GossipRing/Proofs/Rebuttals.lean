import GossipRing.Proofs.Cluster
import GossipRing.Proofs.LocalMember

/-!
# Whose word about a node lasts

Toward: whether a node that is called down is believed when it answers. It answers at an incarnation
above its own, or at its clock if that is greater. Neither has to do with the claim, and the peers
that believed the claim compare the answer with it.

* **`rebuttalIncarnation`** — the incarnation of the answer, and `lt_rebuttalIncarnation_iff`: which
  claims are older.
* **`apply_refuted`**, **`Applied.refuted`** — the answer to one claim, and in a batch.
* **`take_alive`** — what a peer makes of an answer.
* **`Cluster.rebuttal_wins`** — where every node began with an empty table, nobody is spoken of at an
  incarnation that it has not reached, and every answer is believed.
-/

namespace GossipRing

namespace Membership

variable {m m' m₁ : Membership} {now : Clock} {inc own : UInt64} {row old : Member} {c r : Change}
  {before after first effects : List Change}

/-! ## The answer -/

/-- The incarnation at which a node answers that it is not down. -/
def rebuttalIncarnation (now : Clock) (own : UInt64) : UInt64 := max now.reading (own + 1)

/-- The answer of a node whose row is at incarnation `own`. -/
def rebuttal (m : Membership) (now : Clock) (own : UInt64) : Change :=
  m.refutation (rebuttalIncarnation now own) now

/-- Older than the answer is what is older than the clock, or no newer than the node's own row. -/
theorem lt_rebuttalIncarnation_iff (hroom : own ≠ lastIncarnation) :
    inc < rebuttalIncarnation now own ↔ inc < now.reading ∨ inc ≤ own := by
  rw [lastIncarnation] at hroom
  have hsucc : inc < own + 1 ↔ inc ≤ own := by grind
  rw [← hsucc]
  show inc < (if now.reading ≤ own + 1 then own + 1 else now.reading) ↔
    inc < now.reading ∨ inc < own + 1
  split
  · next hle => exact ⟨Or.inr, fun h => h.elim (fun hlt => UInt64.lt_of_lt_of_le hlt hle) id⟩
  · next hgreater =>
    have hlt : own + 1 < now.reading := UInt64.not_le.mp hgreater
    exact ⟨Or.inl, fun h => h.elim id fun hnewer => UInt64.lt_trans hnewer hlt⟩

theorem aliveOverrides_refutation (m : Membership) (now : Clock) :
    Precedence.aliveOverrides old (m.refutation inc now) ↔ old.incarnation < inc := by
  rw [Precedence.aliveOverrides, Bool.and_eq_true, decide_eq_true_iff, decide_eq_true_iff]
  exact and_iff_right rfl

/-- What a node that knows itself makes of a claim that it is down. -/
theorem apply_refuted (now : Clock) (hlocal : c.address = m.here) (hdown : c.status.IsDown)
    (hrow : m.localRow? = some row) (hroom : row.incarnation ≠ lastIncarnation) :
    apply now m c =
      .done (m.put (m.rebuttal now row.incarnation).toMember)
        (some (m.rebuttal now row.incarnation)) := by
  have hrefutes : m.Refutes c := ⟨hlocal, hdown, by rw [hrow]; rfl⟩
  have hfresh : m.freshIncarnation? now = some (rebuttalIncarnation now row.incarnation) := by
    rw [← localIncarnation_of_localRow? hrow] at hroom ⊢
    exact if_neg hroom
  rw [apply_of_refutes now hrefutes, hfresh]
  rfl

/-- In a batch the answer takes the place of the claim. -/
theorem Applied.refuted {after : List Change} (h : Applied now m (before ++ c :: after) m' effects)
    (hbefore : applyAll now m before = .done m₁ first) (hnamed : ¬c.isMalformed)
    (hlocal : c.address = m.here) (hdown : c.status.IsDown) (hrow : m₁.localRow? = some row)
    (hroom : row.incarnation ≠ lastIncarnation) :
    ∃ rest, effects =
      first ++ m.rebuttal (now.after before.length) row.incarnation :: rest := by
  obtain ⟨m₂, first', hbefore', hanswer⟩ := h.refutes hnamed hlocal hdown
  obtain ⟨rfl, rfl⟩ := Attempt.done.inj (hbefore.symm.trans hbefore')
  obtain ⟨inc, m₂, rest, -, happly, -, heffects⟩ := hanswer row hrow
  have hhere : m₁.here = m.here := (applyAll_eq_done_iff.mp hbefore).here_eq
  rw [apply_refuted _ (hlocal.trans hhere.symm) hdown hrow hroom] at happly
  have hrebuttal := Option.some.inj (Attempt.done.inj happly).2
  rw [rebuttal, refutation, hhere] at hrebuttal
  exact ⟨rest, by rw [heffects, ← hrebuttal]; rfl⟩

/-- A batch that ends with the claim is completed, and leaves the row that the answer asks for. -/
theorem applied_refuted (hbefore : Applied now m before m₁ first) (hnamed : ¬c.isMalformed)
    (hlocal : c.address = m.here) (hdown : c.status.IsDown) (hrow : m₁.localRow? = some row)
    (hroom : row.incarnation ≠ lastIncarnation) :
    ∃ m₂, Applied now m (before ++ [c]) m₂
        (first ++ [m.rebuttal (now.after before.length) row.incarnation]) ∧
      m₂.localRow? = some (m.rebuttal (now.after before.length) row.incarnation).toMember := by
  have hhere : m₁.here = m.here := hbefore.here_eq
  have hanswer : applyAll (now.after before.length) m₁ [c] =
      .done (m₁.put (m₁.rebuttal (now.after before.length) row.incarnation).toMember)
        [m₁.rebuttal (now.after before.length) row.incarnation] := by
    rw [applyAll_cons_of_effect hnamed
      (apply_refuted _ (hlocal.trans hhere.symm) hdown hrow hroom)]
    rfl
  have happlied := hbefore.append (applyAll_eq_done_iff.mp hanswer)
  rw [rebuttal, refutation, hhere] at happlied
  refine ⟨_, happlied, ?_⟩
  rw [localRow?_put]
  exact if_pos hhere.symm

/-! ## The peers -/

/-- A peer that records the member takes the answer exactly if it is newer. -/
theorem take_alive (hready : m.isReady) (hremote : r.address ≠ m.here) (hnamed : ¬r.isMalformed)
    (halive : r.status = .alive) (hrow : m.row? r.address = some old) (now : Clock)
    (localAlive : Bool) :
    (old.incarnation < r.incarnation →
      ∃ m', m.update now [r] localAlive = .done m' [r] ∧ m'.row? r.address = some r.toMember) ∧
    (¬old.incarnation < r.incarnation → m.update now [r] localAlive = .done m []) := by
  have haccepts : m.Accepts r ↔ old.incarnation < r.incarnation := by
    rw [accepts_iff_of_some hrow, Precedence.overrides_iff_of_alive halive, and_iff_left_iff_imp]
    exact fun _ hlocal => absurd hlocal hremote
  constructor
  · intro hnewer
    have happlied : Applied now m [r] (m.put r.toMember) [r] :=
      .accept hnamed (haccepts.mpr hnewer) .nil
    refine ⟨_, update_of_applied hready localAlive happlied, ?_⟩
    rw [(alike_conclude _ _).row?, row?_put]
    exact if_pos rfl
  · intro holder
    have hignores : m.Ignores r :=
      Or.inr ⟨mt haccepts.mp holder, not_refutes_of_remote hremote⟩
    exact update_of_applied hready localAlive (.ignore hignores .nil)

/-! ## Every answer -/

/-- **A rebuttal wins exactly over claims older than the clock or no newer than the node's own row.**

    A ready node that knows itself hears, alone or after other claims, that it is suspect, faulty or
    reaped. It completes the claim and answers that it is alive, at an incarnation above that of its
    row and no smaller than its clock at the claim's turn. The answer overrides a row that holds the
    claim exactly if the claim's incarnation is below that clock or no greater than that of the
    node's row. Any ready peer with that row takes the answer exactly then, and else is left as it
    was. -/
theorem rebuttal_wins_iff (hready : m.isReady) (hbefore : applyAll now m before = .done m₁ first)
    (hrow : m₁.localRow? = some row) (hroom : row.incarnation ≠ lastIncarnation)
    (hnamed : ¬c.isMalformed) (hlocal : c.address = m.here) (hdown : c.status.IsDown) :
    ∃ turn rebuttal, turn = now.after before.length ∧
      rebuttal = m.refutation (max turn.reading (row.incarnation + 1)) turn ∧
      (∀ localAlive, ∃ m', m.update now (before ++ [c]) localAlive =
        .done m' (first ++ [rebuttal]) ∧ m'.localRow? = some rebuttal.toMember) ∧
      (∀ after localAlive m' effects,
        m.update now (before ++ c :: after) localAlive = .done m' effects →
        ∃ rest, effects = first ++ rebuttal :: rest) ∧
      (Precedence.aliveOverrides ⟨m.here, c.status, c.incarnation⟩ rebuttal ↔
        c.incarnation < turn.reading ∨ c.incarnation ≤ row.incarnation) ∧
      ∀ (peer : Membership) (later : Clock) (localAlive : Bool), peer.isReady → peer.here ≠ m.here →
        peer.row? m.here = some ⟨m.here, c.status, c.incarnation⟩ →
        ∃ peer' effects, peer.update later [rebuttal] localAlive = .done peer' effects ∧
          (peer'.row? m.here = some rebuttal.toMember ↔
            c.incarnation < turn.reading ∨ c.incarnation ≤ row.incarnation) ∧
          (¬(c.incarnation < turn.reading ∨ c.incarnation ≤ row.incarnation) → peer' = peer) := by
  have happlied := applyAll_eq_done_iff.mp hbefore
  refine ⟨_, m.rebuttal (now.after before.length) row.incarnation, rfl, rfl, ?_⟩
  rw [← lt_rebuttalIncarnation_iff hroom]
  refine ⟨?_, ?_, ?_, ?_⟩
  · intro localAlive
    obtain ⟨m₂, hbatch, hanswered⟩ := applied_refuted happlied hnamed hlocal hdown hrow hroom
    refine ⟨_, update_of_applied hready localAlive hbatch, ?_⟩
    rw [(alike_conclude _ _).localRow?]
    exact hanswered
  · intro after localAlive m' effects hupdate
    obtain ⟨m₂, hbatch, -⟩ := update_eq_done hupdate
    rw [hready, Bool.true_or, if_pos rfl] at hbatch
    exact hbatch.refuted hbefore hnamed hlocal hdown hrow hroom
  · exact aliveOverrides_refutation m _
  · intro peer later localAlive hpeer hremote hheld
    have hnamed' :
        ¬(m.rebuttal (now.after before.length) row.incarnation).isMalformed := by
      rw [Change.isMalformed, hlocal] at hnamed
      exact hnamed
    obtain ⟨htake, hrefuse⟩ := take_alive
      (r := m.rebuttal (now.after before.length) row.incarnation)
      hpeer hremote.symm hnamed' rfl hheld later localAlive
    by_cases hnewer :
        c.incarnation < rebuttalIncarnation (now.after before.length) row.incarnation
    · obtain ⟨peer', hupdate, htaken⟩ := htake hnewer
      exact ⟨peer', _, hupdate, iff_of_true htaken hnewer, fun holder => absurd hnewer holder⟩
    · refine ⟨peer, [], hrefuse hnewer, iff_of_false ?_ hnewer, fun _ => rfl⟩
      -- the claim's row is not that of a member that is alive
      intro htaken
      have hstatus : c.status = .alive :=
        congrArg Member.status (Option.some.inj (hheld.symm.trans htaken))
      rw [hstatus] at hdown
      exact absurd hdown (by decide)

/-- `a` stands at 5 and hears, behind another claim, that it failed at 4. Its answer is at 6 whatever
    its clock says, and `b`, which recorded the failure, takes it. -/
theorem rebuttal_wins_iff_over_older_claim :
    ∃ m peer m' peer' effects, (empty "a" hash32 .none).run [(5, .assert "a" .alive 5), (5, .openGate)] =
        .done m () ∧
      (empty "b" hash32 .none).run
        [(1, .assert "b" .alive 1), (1, .openGate), (4, .assert "a" .faulty 4)] = .done peer () ∧
      m.update 2 [⟨"b", .alive, 1, "b", 1, 1⟩, ⟨"a", .faulty, 4, "b", 1, 4⟩] false =
        .done m' [⟨"b", .alive, 1, "b", 1, 1⟩, ⟨"a", .alive, 6, "a", 6, 2⟩] ∧
      peer.update 7 [⟨"a", .alive, 6, "a", 6, 2⟩] false = .done peer' effects ∧
      peer'.row? "a" = some ⟨"a", .alive, 6⟩ := by
  have hrun : (empty "a" hash32 .none).run [(5, .assert "a" .alive 5), (5, .openGate)] = .done _ () :=
    Attempt.eq_done_of_result? (by decide +kernel)
  have hpeer : (empty "b" hash32 .none).run
      [(1, .assert "b" .alive 1), (1, .openGate), (4, .assert "a" .faulty 4)] = .done _ () :=
    Attempt.eq_done_of_result? (by decide +kernel)
  have hbefore : applyAll 2
      ((empty "a" hash32 .none).run [(5, .assert "a" .alive 5), (5, .openGate)]).state
      [⟨"b", .alive, 1, "b", 1, 1⟩] = .done _ [⟨"b", .alive, 1, "b", 1, 1⟩] :=
    Attempt.eq_done_of_result? (by decide +kernel)
  obtain ⟨turn, rebuttal, rfl, rfl, hanswer, -, -, hpeers⟩ :=
    rebuttal_wins_iff (c := ⟨"a", .faulty, 4, "b", 1, 4⟩) (by decide +kernel) hbefore
      (show _ = some (⟨"a", .alive, 5⟩ : Member) by decide +kernel) (by decide) (by decide)
      (by decide +kernel) (by decide)
  obtain ⟨m', hupdate, -⟩ := hanswer false
  obtain ⟨peer', effects, htaken, hwins, -⟩ := hpeers
    ((empty "b" hash32 .none).run
      [(1, .assert "b" .alive 1), (1, .openGate), (4, .assert "a" .faulty 4)]).state 7 false
    (by decide +kernel) (by decide +kernel) (by decide +kernel)
  exact ⟨_, _, m', peer', effects, hrun, hpeer, hupdate, htaken, hwins.mpr (Or.inr (by decide))⟩

/-- `a` was known at 9, and began again with a clock that is behind. It hears that it failed at 9 and
    answers at 7, which overrides nothing: `b` goes on recording the failure. -/
theorem rebuttal_too_old :
    ∃ m peer m' peer', (empty "a" hash32 .none).run [(5, .assert "a" .alive 5), (5, .openGate)] =
        .done m () ∧
      (empty "b" hash32 .none).run
        [(1, .assert "b" .alive 1), (1, .openGate), (9, .assert "a" .faulty 9)] = .done peer () ∧
      m.update 7 [⟨"a", .faulty, 9, "b", 1, 9⟩] false =
        .done m' [⟨"a", .alive, 7, "a", 7, 7⟩] ∧
      Precedence.aliveOverrides ⟨"a", .faulty, 9⟩ ⟨"a", .alive, 7, "a", 7, 7⟩ = false ∧
      peer.row? "a" = some ⟨"a", .faulty, 9⟩ ∧
      peer.update 7 [⟨"a", .alive, 7, "a", 7, 7⟩] false = .done peer' [] ∧
      peer'.row? "a" = some ⟨"a", .faulty, 9⟩ := by
  refine ⟨_, _, _, _, Attempt.eq_done_of_result? ?_, Attempt.eq_done_of_result? ?_,
    Attempt.eq_done_of_result? ?_, ?_, ?_, Attempt.eq_done_of_result? ?_, ?_⟩
  all_goals decide +kernel

end Membership

namespace Cluster

/-- **Where nobody begins again, every rebuttal wins.** Whatever is said of a node anywhere in a
    cluster of nodes that were new once, the answer overrides it, whatever the clock says. -/
theorem rebuttal_wins {ι : Type} [DecidableEq ι] {w : Cluster ι} (h : w.Reachable) (i : ι)
    {c : Change} {row : Member} (hsaid : c.mention ∈ w.mentions)
    (habout : c.address = (w.nodes i).address)
    (hrow : (w.nodes i).membership.localRow? = some row)
    (hroom : row.incarnation ≠ Membership.lastIncarnation) (now : Clock) :
    Precedence.aliveOverrides c.toMember
      ((w.nodes i).membership.refutation (max now.reading (row.incarnation + 1)) now) := by
  obtain ⟨own, hown, hle⟩ := h.sound.backed _ hsaid i habout.symm
  obtain rfl := Option.some.inj (hrow.symm.trans hown)
  exact (Membership.aliveOverrides_refutation _ now).mpr
    ((Membership.lt_rebuttalIncarnation_iff hroom).mpr (Or.inr hle))

end Cluster

end GossipRing
