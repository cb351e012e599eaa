import GossipRing.Proofs.ChecksumTexts
import GossipRing.Proofs.WaitingClaims
import GossipRing.Proofs.WireRoundTrip

/-!
# Silence certifies agreement

Toward: a node that answers a ping with no claims has the table of its sender. It is silent if nothing
waits to be passed on and the checksum that came with the ping is its own, so what has to be shown is
that checksums which are kept, and not computed when they are compared, still speak of the tables.

* **`Piggyback.answer_eq_nil_iff`** — when nothing is handed out as an answer.
* **`Membership.checksum_eq_iff`** — the checksums that two tables keep are equal exactly if their rows
  are, unless the hash takes their two texts to one value.
* **`Node.answerPing_silent_iff`** — when a ping is answered with no claims.
* **`Process.silence_certifies_agreement`** — the same of two nodes to which anything has happened.
-/

namespace GossipRing

/-- Nothing is handed out as an answer if nothing may still go out, and the checksums agree or there
    are no rows to send. -/
theorem Piggyback.answer_eq_nil_iff (b : Piggyback) (checksum : Option UInt32) (m : Membership)
    (now : Clock) :
    (b.answer checksum m now).2 = [] ↔ b.issue.2 = [] ∧ (checksum = m.checksum ∨ m.rows = []) := by
  have hsnapshot : m.snapshot now = [] ↔ m.rows = [] := List.map_eq_nil_iff
  rw [answer]
  dsimp only
  split
  · next hdiffers =>
    rw [Bool.and_eq_true, List.isEmpty_iff, decide_eq_true_eq] at hdiffers
    rw [hsnapshot, and_iff_right hdiffers.1, or_iff_right hdiffers.2]
  · next hsame =>
    rw [Bool.and_eq_true, List.isEmpty_iff, decide_eq_true_eq, not_and, not_not] at hsame
    exact ⟨fun hnone => ⟨hnone, Or.inl (hsame hnone)⟩, And.left⟩

theorem Piggyback.pending_issue_eq_nil_iff (b : Piggyback) :
    b.issue.1.pending = [] ↔ b.issue.2 = [] :=
  List.map_eq_nil_iff.trans List.map_eq_nil_iff.symm

namespace Membership

variable {m m' : Membership}

/-- The hash takes the texts of the two tables to one value only if they are one text. -/
def Tells (hash : HashFunction) (m m' : Membership) : Prop :=
  hash m.checksumText = hash m'.checksumText → m.checksumText = m'.checksumText

/-- What a table keeps as its checksum is the hash of its text. There may be none where there are no
    rows. -/
theorem Reached.checksum_cases (hm : m.Reached) :
    m.checksum = some (m.hash m.checksumText) ∨ m.checksum = none ∧ m.rows = [] := by
  have hfits := hm.fits
  cases hchecksum : m.checksum with
  | none =>
      rw [hchecksum] at hfits
      exact Or.inr ⟨rfl, hfits⟩
  | some checksum =>
      rw [hchecksum] at hfits
      exact Or.inl (congrArg some (Describes.unique hfits (describes_computeChecksum m) (.refl _)))

/-- **Kept checksums are equal exactly if the rows are**, in whatever order they stand. -/
theorem checksum_eq_iff (hm : m.Reached) (hm' : m'.Reached) (hhash : m'.hash = m.hash)
    (hplain : m.Plain) (hplain' : m'.Plain) (htells : Tells m.hash m m') (hrows : m'.rows ≠ []) :
    m.checksum = m'.checksum ↔ m'.rows.Perm m.rows := by
  have hkept' : m'.checksum = some (m.hash m'.checksumText) := by
    rw [← hhash]
    exact hm'.checksum_cases.resolve_right fun hnone => hrows hnone.2
  rw [hkept', List.perm_comm, ← checksumText_eq_iff hplain hplain']
  rcases hm.checksum_cases with hkept | ⟨hnone, hnil⟩
  · rw [hkept]
    exact ⟨fun hsame => htells (Option.some.inj hsame), fun htext => by rw [htext]⟩
  · -- a table without a checksum has no rows, and the other one has some
    refine iff_of_false (hnone ▸ nofun) fun htext => hrows ?_
    have hperm := (checksumText_eq_iff hplain hplain').mp htext
    exact List.nil_perm.mp (hnil ▸ hperm)

end Membership

namespace Node

variable {n n' n₁ : Node} {now : Moment} {r : PingRequest} {response : PingResponse}
  {effects : List Change}

theorem answerPing_of_update (h : n.update now r.changes = .done n₁ effects) :
    n.answerPing now r = .done { n₁ with piggyback := n₁.piggyback.issue.1 }
      { changes := (n₁.answerWith now r.checksum).2, status := true } := by
  rw [answerPing, h, Attempt.andThen_done, ← n₁.answerWith_fst now r.checksum]

/-- **A ping is answered with no claims exactly if none waits any more, and the checksum that it brings
    is that of the node or there are no rows.** -/
theorem answerPing_silent_iff (h : n.answerPing now r = .done n' response) :
    response.changes = [] ↔
      n'.piggyback.pending = [] ∧ (r.checksum = n'.membership.checksum ∨ n'.membership.rows = []) := by
  obtain ⟨n₁, effects, -, rfl, rfl⟩ := answerPing_eq_done h
  rw [answerWith_fst, Piggyback.pending_issue_eq_nil_iff]
  exact n₁.piggyback.answer_eq_nil_iff r.checksum n₁.membership now.wall

end Node

namespace Process

variable {p q : Process} {now : Moment} {received : PingRequest} {n : Node} {response : PingResponse}

/-- What answering a ping makes of the table of a node to which anything has happened. -/
theorem Reached.table_answerPing (hq : q.Reached)
    (h : q.node.answerPing now received = .done n response) : n.membership.Reached := by
  have hrun : q.run [(now, .move (.answerPing received))] = .done (q.withNode n) () := by
    rw [Process.run, Act.perform, Move.perform, h]
    rfl
  exact (hq.run hrun).table

/-- **Silence certifies agreement.**

    Take two nodes with one hash function, to which anything may have happened, and a ping that one of
    them sends as it is read at the other. Let no address in either table have a semicolon in it, and
    let the hash not take the texts of the two tables to one value, unless they are one text. If the
    table of the node that answers is not empty once the claims of the ping are taken in, the answer
    carries no claims exactly if none waits to be passed on any more and its rows are those of the
    sender's table, with their addresses, statuses and incarnations. -/
theorem silence_certifies_agreement (hp : p.Reached) (hq : q.Reached)
    (hhash : q.node.membership.hash = p.node.membership.hash)
    (hreceived : PingRequest.ofJson? p.node.composePing.2.toJson = some received)
    (hanswer : q.node.answerPing now received = .done n response)
    (hplain : p.node.membership.Plain) (hplain' : n.membership.Plain)
    (htells : Membership.Tells p.node.membership.hash p.node.membership n.membership)
    (hrows : n.membership.rows ≠ []) :
    response.changes = [] ↔
      n.piggyback.pending = [] ∧ n.membership.rows.Perm p.node.membership.rows := by
  rw [PingRequest.ofJson?_toJson] at hreceived
  obtain rfl := Option.some.inj hreceived
  have hhash' : n.membership.hash = p.node.membership.hash := by
    obtain ⟨n₁, effects, hupdate, rfl, -⟩ := Node.answerPing_eq_done hanswer
    obtain ⟨m, happly, rfl⟩ := Node.settle_eq_done hupdate
    show (Node.spread _ now effects).membership.hash = _
    rw [Node.membership_spread, ← hhash]
    exact (Membership.Op.update _ false).hash_eq happly
  rw [Node.answerPing_silent_iff hanswer, or_iff_left hrows]
  exact and_congr_right fun _ => Membership.checksum_eq_iff hp.table (hq.table_answerPing hanswer)
    hhash' hplain hplain' htells hrows

/-- The nodes `a` and `b` know each other. The claims of `b` have gone out as often as they may, and
    it has nothing to say to a ping from `a`. -/
theorem silence_certifies_agreement_of_pair :
    ∃ (p q : Process) (received : PingRequest) (n : Node) (response : PingResponse),
      p.Reached ∧ q.Reached ∧ PingRequest.ofJson? p.node.composePing.2.toJson = some received ∧
      received.changes = [⟨"a", .alive, 7, "a", 0, 7⟩, ⟨"b", .alive, 3, "a", 7, 9⟩] ∧
      q.node.answerPing ⟨10, 4⟩ received = .done n response ∧
      n.membership.rows = [⟨"a", .alive, 7⟩, ⟨"b", .alive, 3⟩] ∧ response.changes = [] := by
  obtain ⟨p, hp, hhash, hplain, hsent, hrows⟩ : ∃ p : Process, p.Reached ∧
      p.node.membership.hash = hash32 ∧ p.node.membership.Plain ∧
      Change.wellFormed p.node.composePing.2.changes =
        [⟨"a", .alive, 7, "a", 0, 7⟩, ⟨"b", .alive, 3, "a", 7, 9⟩] ∧
      p.node.membership.rows = [⟨"b", .alive, 3⟩, ⟨"a", .alive, 7⟩] := by
    refine ⟨_, ⟨hash32, "a", { Settings.default with replicaPoints := 2 }, .none, _,
      [(⟨7, 0⟩, .enter 0), (⟨7, 0⟩, .announce 0), (⟨8, 1⟩, .complete 0 []),
        (⟨9, 2⟩, .move (.takeIn "b" 3))], rfl, Attempt.eq_done_of_result? ?_⟩, rfl, ?_, ?_, ?_⟩
    all_goals decide +kernel
  obtain ⟨q, n₁, hq, hhash', hupdate, hplain', hpending, hrows'⟩ : ∃ (q : Process) (n₁ : Node),
      q.Reached ∧ q.node.membership.hash = hash32 ∧
      q.node.update ⟨10, 4⟩ [⟨"a", .alive, 7, "a", 0, 7⟩, ⟨"b", .alive, 3, "a", 7, 9⟩] =
        .done n₁ [] ∧
      n₁.membership.Plain ∧ n₁.piggyback.issue.1.pending = [] ∧
      n₁.membership.rows = [⟨"a", .alive, 7⟩, ⟨"b", .alive, 3⟩] := by
    refine ⟨_, _, ⟨hash32, "b", { Settings.default with replicaPoints := 2, maxPiggybackCount := 0 },
      .none, _, [(⟨3, 0⟩, .enter 0), (⟨3, 0⟩, .announce 0), (⟨8, 1⟩, .complete 0 []),
        (⟨9, 2⟩, .move (.takeIn "a" 7)), (⟨9, 3⟩, .move .composePing)], rfl,
      Attempt.eq_done_of_result? ?_⟩, rfl, Attempt.eq_done_of_result? ?_, ?_, ?_, ?_⟩
    all_goals decide +kernel
  have hreceived := PingRequest.ofJson?_toJson p.node.composePing.2
  rw [hsent] at hreceived
  have hanswer : q.node.answerPing ⟨10, 4⟩ { p.node.composePing.2 with
      changes := [⟨"a", .alive, 7, "a", 0, 7⟩, ⟨"b", .alive, 3, "a", 7, 9⟩] } = .done _ _ :=
    Node.answerPing_of_update hupdate
  have hperm : n₁.membership.rows.Perm p.node.membership.rows := by
    rw [hrows, hrows']
    exact .swap _ _ []
  refine ⟨p, q, _, _, _, hp, hq, hreceived, rfl, hanswer, hrows', ?_⟩
  refine (silence_certifies_agreement hp hq (hhash'.trans hhash.symm) hreceived hanswer hplain hplain'
    (fun _ => (Membership.checksumText_eq_iff hplain hplain').mpr hperm.symm) ?_).mpr
      ⟨hpending, hperm⟩
  exact fun hnil => List.cons_ne_nil _ _ (hrows'.symm.trans hnil)

/-- **A stop leaves the checksum behind the table.** The nodes `a` and `b` agree that `d` is alive, and
    that `a` is at the largest incarnation. Then `a` hears in one batch that `d` failed and that it is
    suspect itself, and the batch stops at the second claim: the row of `d` is changed by then, and the
    checksum is not. To a ping that brings this checksum `b` has nothing to say. -/
theorem stop_leaves_checksum_behind :
    ∃ (node : Node) (p q : Process) (received : PingRequest) (n : Node) (response : PingResponse),
      Node.createWith hash32 "a" { Settings.default with replicaPoints := 2 } .none = .ok node ∧
      p = (start node).persist
        [(⟨7, 0⟩, .enter 0), (⟨7, 0⟩, .announce 0), (⟨8, 1⟩, .complete 0 []),
          (⟨9, 2⟩, .move (.absorb [⟨"b", .alive, 3, "b", 3, 8⟩, ⟨"d", .alive, 3, "d", 3, 8⟩,
            ⟨"a", .alive, 18446744073709551615, "b", 3, 8⟩])),
          (⟨9, 3⟩, .move (.absorb [⟨"d", .faulty, 3, "c", 1, 9⟩,
            ⟨"a", .suspect, 18446744073709551615, "c", 1, 9⟩]))] ∧
      q.Reached ∧ PingRequest.ofJson? p.node.composePing.2.toJson = some received ∧
      q.node.answerPing ⟨10, 4⟩ received = .done n response ∧ response.changes = [] ∧
      p.node.membership.row? "d" = some ⟨"d", .faulty, 3⟩ ∧
      n.membership.row? "d" = some ⟨"d", .alive, 3⟩ ∧
      p.node.membership.computeChecksum ≠ n.membership.computeChecksum := by
  -- the node `a` up to the batch that stops, and after it
  obtain ⟨node, p₀, p, hnode, hrun, hp, hhash, hhash', hrows₀, hrows, hkept, hsent⟩ :
      ∃ (node : Node) (p₀ p : Process),
      Node.createWith hash32 "a" { Settings.default with replicaPoints := 2 } .none = .ok node ∧
      (start node).run
        [(⟨7, 0⟩, .enter 0), (⟨7, 0⟩, .announce 0), (⟨8, 1⟩, .complete 0 []),
          (⟨9, 2⟩, .move (.absorb [⟨"b", .alive, 3, "b", 3, 8⟩, ⟨"d", .alive, 3, "d", 3, 8⟩,
            ⟨"a", .alive, 18446744073709551615, "b", 3, 8⟩]))] = .done p₀ () ∧
      p = (start node).persist
        [(⟨7, 0⟩, .enter 0), (⟨7, 0⟩, .announce 0), (⟨8, 1⟩, .complete 0 []),
          (⟨9, 2⟩, .move (.absorb [⟨"b", .alive, 3, "b", 3, 8⟩, ⟨"d", .alive, 3, "d", 3, 8⟩,
            ⟨"a", .alive, 18446744073709551615, "b", 3, 8⟩])),
          (⟨9, 3⟩, .move (.absorb [⟨"d", .faulty, 3, "c", 1, 9⟩,
            ⟨"a", .suspect, 18446744073709551615, "c", 1, 9⟩]))] ∧
      p₀.node.membership.hash = hash32 ∧ p.node.membership.hash = hash32 ∧
      p₀.node.membership.rows =
        [⟨"d", .alive, 3⟩, ⟨"b", .alive, 3⟩, ⟨"a", .alive, 18446744073709551615⟩] ∧
      p.node.membership.rows =
        [⟨"d", .faulty, 3⟩, ⟨"b", .alive, 3⟩, ⟨"a", .alive, 18446744073709551615⟩] ∧
      p.node.membership.checksum = p₀.node.membership.checksum ∧
      p.node.composePing.2 = ⟨p.node.membership.checksum, [⟨"b", .alive, 3, "b", 3, 8⟩,
        ⟨"d", .alive, 3, "d", 3, 8⟩, ⟨"a", .alive, 18446744073709551615, "b", 3, 8⟩], "a",
        18446744073709551615⟩ := by
    refine ⟨_, _, _, rfl, Attempt.eq_done_of_result? ?_, rfl, rfl, rfl, ?_, ?_, rfl, rfl⟩
    all_goals decide +kernel
  -- the node `b`, to which the claims of the ping are no news
  obtain ⟨q, n₁, hq, hhash₁, hupdate, hpending, hrows₁⟩ : ∃ (q : Process) (n₁ : Node),
      q.Reached ∧ n₁.membership.hash = hash32 ∧
      q.node.update ⟨10, 4⟩ [⟨"b", .alive, 3, "b", 3, 8⟩, ⟨"d", .alive, 3, "d", 3, 8⟩,
        ⟨"a", .alive, 18446744073709551615, "b", 3, 8⟩] = .done n₁ [] ∧
      n₁.piggyback.issue.1.pending = [] ∧
      n₁.membership.rows =
        [⟨"d", .alive, 3⟩, ⟨"a", .alive, 18446744073709551615⟩, ⟨"b", .alive, 3⟩] := by
    refine ⟨_, _, ⟨hash32, "b", { Settings.default with replicaPoints := 2, maxPiggybackCount := 0 },
      .none, _, [(⟨3, 0⟩, .enter 0), (⟨3, 0⟩, .announce 0), (⟨8, 1⟩, .complete 0 []),
        (⟨9, 2⟩, .move (.absorb [⟨"a", .alive, 18446744073709551615, "b", 3, 8⟩,
          ⟨"d", .alive, 3, "d", 3, 8⟩])), (⟨9, 3⟩, .move .composePing)], rfl,
      Attempt.eq_done_of_result? ?_⟩, rfl, Attempt.eq_done_of_result? ?_, ?_, ?_⟩
    all_goals decide +kernel
  have hanswer := Node.answerPing_of_update (r := ⟨p.node.membership.checksum,
    [⟨"b", .alive, 3, "b", 3, 8⟩, ⟨"d", .alive, 3, "d", 3, 8⟩,
      ⟨"a", .alive, 18446744073709551615, "b", 3, 8⟩], "a", 18446744073709551615⟩) hupdate
  -- before the stop both had the same rows, and `a` still sends the checksum of these
  have hreached : p₀.Reached := ⟨_, _, _, _, _, _, hnode, hrun⟩
  have hperm : p₀.node.membership.rows.Perm n₁.membership.rows := by
    rw [hrows₀, hrows₁]
    exact .cons _ (.swap _ _ [])
  have hkept₀ : p₀.node.membership.checksum = some p₀.node.membership.computeChecksum :=
    hreached.table.checksum_cases.resolve_right fun hnone =>
      List.cons_ne_nil _ _ (hrows₀.symm.trans hnone.2)
  have hkept₁ : n₁.membership.checksum = some n₁.membership.computeChecksum :=
    (hq.table_answerPing hanswer).checksum_cases.resolve_right fun hnone =>
      List.cons_ne_nil _ _ (hrows₁.symm.trans hnone.2)
  have hsame : p.node.membership.checksum = n₁.membership.checksum := by
    rw [hkept, hkept₀, hkept₁, Membership.computeChecksum_congr (hhash.trans hhash₁.symm) hperm]
  have hreceived := PingRequest.ofJson?_toJson p.node.composePing.2
  rw [hsent] at hreceived
  refine ⟨node, p, q, _, _, _, hnode, hp, hq, by rw [hsent]; exact hreceived, hanswer, ?_, ?_, ?_, ?_⟩
  · exact (Node.answerPing_silent_iff hanswer).mpr ⟨hpending, Or.inl hsame⟩
  · rw [Membership.row?, hrows]
    decide
  · rw [Membership.row?, hrows₁]
    decide
  · have htext : p.node.membership.computeChecksum = 3206251381 := by
      have hdescribes := Membership.describes_computeChecksum p.node.membership
      rw [hhash', hrows] at hdescribes
      refine hdescribes.unique
        ⟨["aalive18446744073709551615", "balive3", "dfaulty3"], ?_, ?_, ?_⟩ (.refl _)
      all_goals decide +kernel
    have htext₁ : n₁.membership.computeChecksum = 1244518833 := by
      have hdescribes := Membership.describes_computeChecksum n₁.membership
      rw [hhash₁, hrows₁] at hdescribes
      refine hdescribes.unique
        ⟨["aalive18446744073709551615", "balive3", "dalive3"], ?_, ?_, ?_⟩ (.refl _)
      all_goals decide +kernel
    rw [htext]
    exact fun heq => absurd (heq.trans htext₁) (by decide)

end Process

end GossipRing
