import GossipRing.Network.Flow
import GossipRing.Proofs.SuspicionTimers
import GossipRing.Proofs.WireFormats

/-!
# What comes of a probe

Toward: a verdict does no harm to newer news. The target is copied when it is picked, and judged when
the helpers have reported. Between the two the node's lock is free, so the row may be another one by
then. It is never an older one, and precedence refuses what is not newer.

* **`Verdict.Polls`** — the reports are heard as they come, until they suffice, as on a network
  (`World.tally_cases`). `Polls.eq_ofReports`: the verdict is that of all reports, and `ofReports_eq`
  tells it without their order.
* **`Process.Probes`** — a probe from its target to its verdict, with whatever else happens meanwhile.
* **`Membership.accepts_suspect_iff`**, **`Node.judge_cases`** — a target that is at least as new as it
  was is suspected only where it is alive at the same incarnation.
* **`Process.Orderly.target_stays`** — the target is that new when it is judged.
* **`Process.verdicts_spare_news`** — what the verdict of a probe is, and what it does.
-/

namespace GossipRing

/-! ## The verdict -/

namespace Verdict

variable {heard waiting reports reports' : List (Option Bool)} {verdict : Verdict}
  {helpers : List Member}

/-- The reports that were heard lead to a verdict, while these are waited for: any of them may come
    next, unless one helper has reached the target. -/
inductive Polls : List (Option Bool) → List (Option Bool) → Verdict → Prop
  | conclude {heard waiting : List (Option Bool)}
      (h : ofReports heard = .reachable ∨ waiting = []) : Polls heard waiting (ofReports heard)
  | hear {heard before after : List (Option Bool)} {report : Option Bool} {verdict : Verdict}
      (hopen : ofReports heard ≠ .reachable)
      (hrest : Polls (heard ++ [report]) (before ++ after) verdict) :
      Polls heard (before ++ report :: after) verdict

/-- The verdict when these helpers are asked and these are their reports. -/
inductive Follows : List Member → List (Option Bool) → Verdict → Prop
  | nobody : Follows [] [] .noHelpers
  | poll {helpers : List Member} {reports : List (Option Bool)} {verdict : Verdict}
      (hasked : helpers ≠ []) (hreports : reports.length = helpers.length)
      (hpolls : Polls [] reports verdict) : Follows helpers reports verdict

/-- **The verdict in terms of what was reported**, in no order. -/
theorem ofReports_eq (reports : List (Option Bool)) : ofReports reports =
    if some true ∈ reports then .reachable
    else if some false ∈ reports then .unreachable
    else .inconclusive := by
  induction reports with
  | nil => rfl
  | cons report rest ih =>
      rcases report with _ | _ | _
      · rw [ofReports, ih]
        simp only [List.mem_cons, reduceCtorEq, false_or]
      · rw [ofReports, ih]
        by_cases hreached : some true ∈ rest
        · simp [hreached]
        · by_cases hfailed : some false ∈ rest <;> simp [hreached, hfailed]
      · simp [ofReports]

theorem ofReports_perm (h : reports.Perm reports') : ofReports reports = ofReports reports' := by
  rw [ofReports_eq, ofReports_eq]
  simp only [h.mem_iff]

/-- **The order in which reports come is no matter**, nor that not all of them are heard. -/
theorem Polls.eq_ofReports (h : Polls heard waiting verdict) :
    verdict = ofReports (heard ++ waiting) := by
  induction h with
  | @conclude heard waiting henough =>
      -- what is left is not heard any more, and could only tell again that the target was reached
      rcases henough with hreached | rfl
      · have hmem : some true ∈ heard ++ waiting :=
          List.mem_append_left _ ((ofReports_eq_reachable_iff heard).mp hreached)
        rw [hreached, (ofReports_eq_reachable_iff _).mpr hmem]
      · rw [List.append_nil]
  | @hear heard before after report verdict _ _ ih =>
      rw [ih]
      refine ofReports_perm ?_
      rw [List.append_assoc, List.singleton_append]
      exact List.Perm.append_left heard List.perm_middle.symm

theorem Follows.eq (h : Follows helpers reports verdict) : verdict =
    if helpers = [] then .noHelpers
    else if some true ∈ reports then .reachable
    else if some false ∈ reports then .unreachable
    else .inconclusive := by
  cases h with
  | nobody => rfl
  | poll hasked _ hpolls => rw [if_neg hasked, hpolls.eq_ofReports, List.nil_append, ofReports_eq]

end Verdict

/-- **On a network the verdict is drawn when it can be**: with the reports that have come so far, as
    many calls to helpers being left as there are reports to wait for. -/
theorem World.tally_cases {w : World} {id : ℕ} {poll : Network.Poll} (hpoll : w.poll? id = some poll)
    {waiting : List (Option Bool)} (hleft : waiting.length = w.calls.countP (World.isCallOf id)) :
    (Verdict.Polls poll.reports waiting (Verdict.ofReports poll.reports) ∧
      w.tally id = (w.dropPoll id).judge poll.run poll.node poll.target
        (Verdict.ofReports poll.reports)) ∨
    (Verdict.ofReports poll.reports ≠ .reachable ∧ waiting ≠ [] ∧ w.tally id = w) := by
  have hleft : (!w.calls.any (World.isCallOf id)) = true ↔ waiting = [] := by
    rw [Bool.not_eq_true', ← Bool.not_eq_true, List.any_eq_true, ← List.countP_pos_iff, ← hleft,
      List.length_pos_iff, not_not]
  rw [World.tally, hpoll]
  by_cases henough : Verdict.ofReports poll.reports = .reachable ∨ waiting = []
  · refine Or.inl ⟨.conclude henough, if_pos ?_⟩
    rw [Bool.or_eq_true, decide_eq_true_iff, hleft]
    exact henough
  · obtain ⟨hopen, hwaiting⟩ := not_or.mp henough
    refine Or.inr ⟨hopen, hwaiting, if_neg ?_⟩
    rw [Bool.or_eq_true, decide_eq_true_iff, hleft]
    exact henough

/-! ## Old claims about a member -/

namespace Membership

variable {now : Clock} {m : Membership} {address : String} {row : Member} {inc : UInt64}

/-- A node's own claim that another member is alive, at no greater incarnation, tells nothing new. -/
theorem not_accepts_alive (hrow : m.row? address = some row) (hle : inc ≤ row.incarnation) :
    ¬m.Accepts (m.ownClaim now address .alive inc) := by
  intro haccepts
  have hover := ((accepts_iff_of_some hrow).mp haccepts).1
  exact UInt64.not_lt.mpr hle ((Precedence.overrides_iff_of_alive rfl).mp hover)

/-- **One that it is a suspect is news only where it is alive at that incarnation.** -/
theorem accepts_suspect_iff (hrow : m.row? address = some row) (hremote : address ≠ m.here)
    (hle : inc ≤ row.incarnation) :
    m.Accepts (m.ownClaim now address .suspect inc) ↔
      m.row? address = some ⟨address, .alive, inc⟩ := by
  have habout : row.address = address := (mem_of_row?_eq_some hrow).2
  rw [accepts_iff_of_some hrow, Precedence.overrides_iff_of_doubted (Or.inl rfl),
    Member.standing_lt_iff, hrow, Option.some_inj]
  constructor
  · -- it is no newer than the row, so it has to be of the same incarnation and worse
    rintro ⟨⟨-, hnewer | ⟨hsame, hbetter⟩⟩, -⟩
    · exact absurd hnewer (UInt64.not_lt.mpr hle)
    · have halive : row.status = .alive := by
        have hbetter : row.status.rank < Status.suspect.rank := hbetter
        revert hbetter
        cases row.status <;> decide
      rw [Member.mk.injEq]
      exact ⟨habout, halive, hsame⟩
  · rintro rfl
    refine ⟨⟨?_, Or.inr ⟨rfl, ?_⟩⟩, fun hlocal => absurd hlocal hremote⟩
    · show ¬Status.alive.IsDeparted
      decide
    · show Status.alive.rank < Status.suspect.rank
      decide

end Membership

namespace Node

variable {n : Node} {address : String} {row : Member} {inc : UInt64}

theorem assert_alive (hready : n.membership.isReady = true) (now : Moment)
    (hremote : address ≠ n.membership.here) (hrow : n.membership.row? address = some row)
    (hle : inc ≤ row.incarnation) : n.assert now address .alive inc = .done n [] :=
  assert_of_not_accepts hready now hremote (Membership.not_accepts_alive hrow hle)

theorem assert_suspect (hready : n.membership.isReady = true) (now : Moment)
    (hremote : address ≠ n.membership.here) (hrow : n.membership.row? address = some row)
    (hle : inc ≤ row.incarnation) (hnamed : address ≠ "") :
    ∃ n' effects, n.assert now address .suspect inc = .done n' effects ∧
      if n.membership.row? address = some ⟨address, .alive, inc⟩ then
        ∀ a, n'.membership.row? a =
          if a = address then some ⟨address, .suspect, inc⟩ else n.membership.row? a
      else n' = n := by
  have hnews : n.membership.Accepts (n.membership.ownClaim now.wall address .suspect inc) ↔
      n.membership.row? address = some ⟨address, .alive, inc⟩ :=
    Membership.accepts_suspect_iff hrow hremote hle
  split
  · next halive =>
    obtain ⟨n', hdone, -, -, -, hrows, -⟩ :=
      assert_of_accepts hready now ⟨address, .suspect, inc⟩ hnamed (hnews.mpr halive)
    exact ⟨n', _, hdone, hrows⟩
  · next hpast =>
    exact ⟨n, [], assert_of_not_accepts hready now hremote (mt hnews.mp hpast), rfl⟩

/-- **A verdict on a target that is at least as new as it was when it was picked.** -/
theorem judge_cases {target : Member} (hready : n.membership.isReady = true) (now : Moment)
    (verdict : Verdict) (hremote : target.address ≠ n.membership.here)
    (hrow : n.membership.row? target.address = some row)
    (hle : target.incarnation ≤ row.incarnation) (hnamed : target.address ≠ "") :
    ∃ n' effects, n.judge now target verdict = .done n' effects ∧
      if (verdict = .unreachable ∨ verdict = .noHelpers) ∧
          n.membership.row? target.address = some ⟨target.address, .alive, target.incarnation⟩ then
        ∀ a, n'.membership.row? a =
          if a = target.address then some ⟨target.address, .suspect, target.incarnation⟩
          else n.membership.row? a
      else n' = n := by
  cases verdict with
  | reachable =>
      refine ⟨n, [], assert_alive hready now hremote hrow hle, ?_⟩
      simp only [reduceCtorEq, or_self, false_and, if_false]
  | unreachable =>
      simp only [true_or, true_and]
      exact assert_suspect hready now hremote hrow hle hnamed
  | noHelpers =>
      simp only [or_true, true_and]
      exact assert_suspect hready now hremote hrow hle hnamed
  | inconclusive =>
      refine ⟨n, [], rfl, ?_⟩
      simp only [reduceCtorEq, or_self, false_and, if_false]

end Node

/-! ## Probes -/

namespace Process

variable {p q : Process} {target : Member} {helpers : List Member} {reports : List (Option Bool)}
  {verdict : Verdict} {acts : List (Moment × Act)}

/-- A probe that has come to its verdict: a target was picked, helpers were asked about it, and they
    have reported. Anything may have happened in between. -/
inductive Probes (p : Process) (target : Member) (helpers : List Member)
    (reports : List (Option Bool)) (verdict : Verdict) : Process → Prop
  | intro {pick ask : Chance} {picked asked : Moment} {before after : List (Moment × Act)}
      {p₁ : Process} (hpick : (p.node.pickTarget pick).1 = some target)
      (hbefore : p.persist ((picked, .move (.pickTarget pick)) :: before) = p₁)
      (hask : (p₁.node.composePingReq target ask).1 = helpers)
      (hverdict : Verdict.Follows helpers reports verdict) :
      Probes p target helpers reports verdict
        (p₁.persist ((asked, .move (.composePingReq target ask)) :: after))

/-- A probe is a run from the node that picks the target, with a verdict. -/
theorem Probes.cases (h : p.Probes target helpers reports verdict q) :
    ∃ pick acts, (p.node.pickTarget pick).1 = some target ∧ p.persist acts = q ∧
      Verdict.Follows helpers reports verdict := by
  obtain ⟨hpick, rfl, -, hverdict⟩ := h
  exact ⟨_, _, hpick, persist_append p _ _, hverdict⟩

/-- **The target stays**, at no smaller incarnation, and the node is ready when it is judged. -/
theorem Orderly.target_stays {pick : Chance} (hp : Orderly p)
    (hpick : (p.node.pickTarget pick).1 = some target) (acts : List (Moment × Act)) :
    (p.persist acts).node.membership.isReady = true ∧
    target.address ≠ (p.persist acts).node.membership.here ∧
    ∃ row, (p.persist acts).node.membership.row? target.address = some row ∧
      target.incarnation ≤ row.incarnation := by
  obtain ⟨hrow, hpingable⟩ := Node.row?_of_pickTarget hpick
  have hremote : target.address ≠ p.node.membership.here :=
    of_decide_eq_true (Bool.and_eq_true_iff.mp hpingable).1
  rw [← hp.here_persist acts] at hremote
  -- no row is lost, even where an act has stopped
  obtain ⟨hq, hkeeps⟩ := hp.persist acts
  obtain ⟨row, hrow', hle⟩ := hkeeps _ _ hrow
  obtain ⟨hmem, haddress⟩ := Membership.mem_of_row?_eq_some hrow'
  refine ⟨hq.isReady_of_remote hmem ?_, hremote, row, hrow', hle⟩
  rw [haddress, ← hq.here]
  exact hremote

/-- **A verdict spares newer news.** Whatever happens to a new node, and whatever happens between the
    moment it picks a member to probe and the moment it judges it: the verdict makes the member a
    suspect only if no helper has reached it, and only if it is still alive at the incarnation it had
    when it was picked. Otherwise nothing changes.

    Nobody has reached the member if some helper has tried and failed, and none has tried and
    succeeded, or if nobody was asked. The reports may have come in any order. -/
theorem verdicts_spare_news {hash : HashFunction} {address : String} {settings : Settings}
    {chance : Chance} {node : Node} (hnode : Node.createWith hash address settings chance = .ok node)
    (acts : List (Moment × Act)) (hp : (start node).persist acts = p)
    (h : p.Probes target helpers reports verdict q) (now : Moment) :
    verdict =
      (if helpers = [] then .noHelpers
      else if some true ∈ reports then .reachable
      else if some false ∈ reports then .unreachable
      else .inconclusive) ∧
    ∃ n effects, q.node.judge now target verdict = .done n effects ∧
      if (verdict = .unreachable ∨ verdict = .noHelpers) ∧
          q.node.membership.row? target.address =
            some ⟨target.address, .alive, target.incarnation⟩ then
        ∀ address, n.membership.row? address =
          if address = target.address then some ⟨target.address, .suspect, target.incarnation⟩
          else q.node.membership.row? address
      else n = q.node := by
  subst hp
  obtain ⟨pick, more, hpick, rfl, hverdict⟩ := h.cases
  obtain ⟨hready, hremote, row, hrow, hle⟩ :=
    ((Orderly.start hnode).persist acts).1.target_stays hpick more
  have hnamed : ((start node).persist acts |>.persist more).node.Named :=
    named_persist (named_persist (named_createWith hnode) acts) more
  obtain ⟨hmem, haddress⟩ := Membership.mem_of_row?_eq_some hrow
  exact ⟨hverdict.eq,
    Node.judge_cases hready now verdict hremote hrow hle (haddress ▸ hnamed.rows row hmem)⟩

/-- The node `a` asks `c` and `d` about `b`, at incarnation 5. `d` has not reached `b`, and then it
    turns out that `c` has not answered. If nothing else has happened, `b` is suspected. If `a` has
    heard in the meantime that `b` is alive at incarnation 6, nothing changes. -/
theorem verdicts_spare_news_from_others :
    ∃ node p q q',
      Node.createWith hash32 "a" { Settings.default with replicaPoints := 2 } .none = .ok node ∧
      (start node).persist
        [(⟨7, 0⟩, .enter 0), (⟨7, 0⟩, .announce 0),
          (⟨8, 1⟩, .complete 0 [⟨some 1, [⟨"d", .alive, 5, "b", 5, 7⟩, ⟨"c", .alive, 5, "b", 5, 7⟩,
            ⟨"b", .alive, 5, "b", 5, 7⟩]⟩])] = p ∧
      p.Probes ⟨"b", .alive, 5⟩ [⟨"c", .alive, 5⟩, ⟨"d", .alive, 5⟩] [none, some false]
        .unreachable q ∧
      (∃ n effects, q.node.judge ⟨9, 5⟩ ⟨"b", .alive, 5⟩ .unreachable = .done n effects ∧
        n.membership.row? "b" = some ⟨"b", .suspect, 5⟩) ∧
      p.Probes ⟨"b", .alive, 5⟩ [⟨"c", .alive, 5⟩, ⟨"d", .alive, 5⟩] [none, some false]
        .unreachable q' ∧
      q'.node.membership.row? "b" = some ⟨"b", .alive, 6⟩ ∧
      ∃ effects, q'.node.judge ⟨9, 5⟩ ⟨"b", .alive, 5⟩ .unreachable = .done q'.node effects := by
  obtain ⟨node, p, hnode, hp, hpick, hask, hstill, hnewer⟩ : ∃ node p,
      Node.createWith hash32 "a" { Settings.default with replicaPoints := 2 } .none = .ok node ∧
      (start node).persist
        [(⟨7, 0⟩, .enter 0), (⟨7, 0⟩, .announce 0),
          (⟨8, 1⟩, .complete 0 [⟨some 1, [⟨"d", .alive, 5, "b", 5, 7⟩, ⟨"c", .alive, 5, "b", 5, 7⟩,
            ⟨"b", .alive, 5, "b", 5, 7⟩]⟩])] = p ∧
      (p.node.pickTarget .none).1 = some ⟨"b", .alive, 5⟩ ∧
      ((p.persist [(⟨9, 2⟩, .move (.pickTarget .none))]).node.composePingReq ⟨"b", .alive, 5⟩
        .none).1 = [⟨"c", .alive, 5⟩, ⟨"d", .alive, 5⟩] ∧
      ((p.persist [(⟨9, 2⟩, .move (.pickTarget .none))]).persist
        [(⟨9, 3⟩, .move (.composePingReq ⟨"b", .alive, 5⟩ .none))]).node.membership.row? "b" =
          some ⟨"b", .alive, 5⟩ ∧
      ((p.persist [(⟨9, 2⟩, .move (.pickTarget .none))]).persist
        [(⟨9, 3⟩, .move (.composePingReq ⟨"b", .alive, 5⟩ .none)),
          (⟨9, 4⟩, .move (.absorb [⟨"b", .alive, 6, "d", 5, 9⟩]))]).node.membership.row? "b" =
          some ⟨"b", .alive, 6⟩ := by
    refine ⟨_, _, rfl, rfl, ?_, ?_, ?_, ?_⟩ <;> decide +kernel
  have hpolls : Verdict.Polls [] [none, some false] .unreachable :=
    @Verdict.Polls.hear [] [none] [] (some false) _ (by decide)
      (@Verdict.Polls.hear [some false] [] [] none _ (by decide) (.conclude (Or.inr rfl)))
  have hprobe (after : List (Moment × Act)) :
      p.Probes ⟨"b", .alive, 5⟩ [⟨"c", .alive, 5⟩, ⟨"d", .alive, 5⟩] [none, some false] .unreachable
        ((p.persist [(⟨9, 2⟩, .move (.pickTarget .none))]).persist
          ((⟨9, 3⟩, .move (.composePingReq ⟨"b", .alive, 5⟩ .none)) :: after)) :=
    .intro hpick rfl hask (.poll (List.cons_ne_nil _ _) rfl hpolls)
  obtain ⟨-, n, effects, hjudge, hrows⟩ := verdicts_spare_news hnode _ hp (hprobe []) ⟨9, 5⟩
  obtain ⟨-, n', effects', hjudge', hkept⟩ := verdicts_spare_news hnode _ hp
    (hprobe [(⟨9, 4⟩, .move (.absorb [⟨"b", .alive, 6, "d", 5, 9⟩]))]) ⟨9, 5⟩
  rw [if_pos ⟨Or.inl rfl, hstill⟩] at hrows
  rw [hnewer, if_neg (by decide)] at hkept
  exact ⟨node, p, _, _, hnode, hp, hprobe [], ⟨n, effects, hjudge, (hrows "b").trans (if_pos rfl)⟩,
    hprobe _, hnewer, effects', hkept ▸ hjudge'⟩

end Process

end GossipRing
