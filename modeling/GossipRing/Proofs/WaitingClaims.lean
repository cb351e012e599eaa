import GossipRing.Node.Control
import GossipRing.Node.Probe
import GossipRing.Node.Requests
import GossipRing.Proofs.Retransmission

/-!
# The claims that wait are the rows

Toward: a node passes on no claim that it does not hold itself. The claims that wait to ride along
are a copy of some rows of the table, fed with all that took effect and emptied by every message that
goes out, and nothing compares the two.

* **`Piggyback.Mirrors`** — at most one claim about each address waits, and each says what the row of
  its address says. Recording a claim and its row together keeps this (`Mirrors.recordAll`), and so
  does handing claims out (`Mirrors.issue`).
* **`Piggyback.Fresh`** — a claim about the address waits that has not gone out yet.
* **`Node.Dealing`**, **`Node.deal`** — what takes claims in and hands claims out, in any order, with
  changes of the settings in between. `Dealt` is all that one of them can do.
* **`Node.waiting_claims_are_rows`** — the claims that wait, and those that go out, along every run.
-/

namespace GossipRing

namespace Piggyback

/-! ## A copy of some rows -/

/-- At most one claim about each address waits, and it says what the row of the address says. -/
structure Mirrors (b : Piggyback) (m : Membership) : Prop where
  single : (b.pending.map fun p => p.change.address).Nodup
  recorded : ∀ p ∈ b.pending, m.row? p.change.address = some p.change.toMember

/-- A claim about the address waits that has not gone out since it was recorded. -/
def Fresh (b : Piggyback) (address : String) : Prop :=
  ∃ p ∈ b.pending, p.change.address = address ∧ p.issued = 0

section

variable {b : Piggyback} {m m' : Membership} {c : Change} {changes : List Change} {address : String}

theorem mirrors_empty (limit : UInt32) (m : Membership) : (empty limit).Mirrors m where
  single := List.nodup_nil
  recorded _ hp := absurd hp List.not_mem_nil

namespace Mirrors

theorem congr (h : b.Mirrors m) (hrows : m'.rows = m.rows) : b.Mirrors m' where
  single := h.single
  recorded p hp := (Membership.row?_congr hrows _).trans (h.recorded p hp)

/-- **A claim that is recorded together with its row.** -/
theorem record (h : b.Mirrors m) (c : Change) : (b.record c).Mirrors (m.put c.toMember) where
  single := nodup_map_replaced h.single ⟨c, 0⟩
  recorded p hp := by
    rw [Membership.row?_put]
    rcases List.mem_append.mp hp with hold | hnew
    · -- an older claim still waits only if it is about another address
      obtain ⟨hmem, hother⟩ := List.mem_filter.mp hold
      exact (if_neg (of_decide_eq_true hother)).trans (h.recorded p hmem)
    · obtain rfl := List.mem_singleton.mp hnew
      exact if_pos rfl

/-- **Claims that are recorded together with their rows**, superseded ones among them. -/
theorem recordAll (h : b.Mirrors m) (changes : List Change) :
    (b.recordAll changes).Mirrors (m.putAll changes) := by
  induction changes generalizing b m with
  | nil => exact h
  | cons c rest ih => exact ih (h.record c)

/-- Claims that waited before, in the same order. -/
theorem of_sublist (h : b.Mirrors m) {b' : Piggyback}
    (hpending : (b'.pending.map Pending.change).Sublist (b.pending.map Pending.change)) :
    b'.Mirrors m where
  single := by
    have haddresses : ∀ b : Piggyback, (b.pending.map fun p => p.change.address) =
        (b.pending.map Pending.change).map Change.address := fun _ => List.map_map.symm
    rw [haddresses]
    exact (haddresses b ▸ h.single).sublist (hpending.map _)
  recorded p hp := by
    obtain ⟨q, hq, hchange⟩ := List.mem_map.mp (hpending.subset (List.mem_map_of_mem hp))
    rw [← hchange]
    exact h.recorded q hq

/-- What still waits after claims were handed out waited before. -/
theorem issue (h : b.Mirrors m) : b.issue.1.Mirrors m := h.of_sublist b.issue_sublist

end Mirrors

theorem fresh_record (b : Piggyback) (c : Change) : (b.record c).Fresh c.address :=
  ⟨⟨c, 0⟩, List.mem_append_right _ (List.mem_singleton_self _), rfl, rfl⟩

theorem Fresh.record (h : b.Fresh address) (c : Change) : (b.record c).Fresh address := by
  by_cases habout : address = c.address
  · rw [habout]
    exact b.fresh_record c
  · obtain ⟨p, hp, rfl, hissued⟩ := h
    exact ⟨p, List.mem_append_left _ (List.mem_filter.mpr ⟨hp, decide_eq_true habout⟩), rfl, hissued⟩

theorem Fresh.recordAll (h : b.Fresh address) (changes : List Change) :
    (b.recordAll changes).Fresh address := by
  induction changes generalizing b with
  | nil => exact h
  | cons c rest ih => exact ih (h.record c)

/-- About every address for which something was recorded a claim waits that has not gone out. -/
theorem fresh_recordAll (b : Piggyback) (h : address ∈ changes.map Change.address) :
    (b.recordAll changes).Fresh address := by
  induction changes generalizing b with
  | nil => exact absurd h List.not_mem_nil
  | cons c rest ih =>
      rcases List.mem_cons.mp h with rfl | hrest
      · exact (b.fresh_record c).recordAll rest
      · exact ih (b.record c) hrest

end

end Piggyback

namespace Node

/-! ## Taking claims in and handing them out -/

/-- What a node does with claims: an operation on its table takes some in, and the messages it sends
    and answers hand some out. How often a claim goes out is one of its settings. -/
inductive Dealing where
  | take (now : Moment) (op : Op)
  | ping
  | pingReq (target : Member) (chance : Chance)
  | answer (now : Moment) (senderChecksum : Option UInt32)
  | configure (patch : Json)

/-- What becomes of the node, with the claims that took effect and those that were handed out. -/
def Dealing.perform (n : Node) : Dealing → Attempt Node (List Change × List Change)
  | take now op => (op.apply now n).map fun effects => (effects, [])
  | ping => .done n.composePing.1 ([], n.composePing.2.changes)
  | pingReq target chance =>
    let (_, request, n, _) := n.composePingReq target chance
    .done n ([], request.changes)
  | answer now senderChecksum =>
    let (n, changes) := n.answerWith now senderChecksum
    .done n ([], changes)
  | configure patch =>
    match n.configure patch with
    | .ok n => .done n ([], [])
    | .error _ => .done n ([], [])

/-- One after the other. -/
def deal (n : Node) : List Dealing → Attempt Node Unit
  | [] => .done n ()
  | dealing :: rest => (dealing.perform n).andThen fun n _ => deal n rest

section

variable {n n' : Node} {dealing : Dealing} {dealings : List Dealing} {effects sent : List Change}

/-- All that a node can do with claims: spread what its table reports, hand out claims that wait or
    the whole table, or change what does not matter to either. -/
inductive Dealt (n : Node) : Node → List Change → List Change → Prop
  | took {now : Moment} {m : Membership} {effects : List Change}
      (hreported : n.membership.Reported (.done m effects)) :
      Dealt n ({ n with membership := m }.spread now effects) effects []
  | handedOut {sent : List Change}
      (hsent : ∀ c ∈ sent, (∃ p ∈ n.piggyback.pending, p.change = c) ∨
        ∃ now, c ∈ n.membership.snapshot now) :
      Dealt n { n with piggyback := n.piggyback.issue.1 } [] sent
  | aside {n' : Node} (htable : n'.membership = n.membership)
      (hpending : n'.piggyback.pending = n.piggyback.pending) : Dealt n n' [] []

theorem dealt_of_perform (h : dealing.perform n = .done n' (effects, sent)) :
    Dealt n n' effects sent := by
  cases dealing with
  | take now op =>
      obtain ⟨taken, happly, hout⟩ := Attempt.map_eq_done h
      obtain ⟨rfl, rfl⟩ := Prod.mk.inj hout
      rcases op.apply_cases now n with ⟨m, reported, hreported, hdone⟩ | ⟨m, -, hstop⟩
      · rw [hdone] at happly
        obtain ⟨rfl, rfl⟩ := Attempt.done.inj happly
        exact .took hreported
      · rw [hstop] at happly
        cases happly
  | ping =>
      obtain ⟨rfl, hout⟩ := Attempt.done.inj h
      obtain ⟨rfl, rfl⟩ := Prod.mk.inj hout
      exact .handedOut fun c hc => Or.inl (Piggyback.mem_issued hc)
  | pingReq target chance =>
      obtain ⟨rfl, hout⟩ := Attempt.done.inj h
      obtain ⟨rfl, rfl⟩ := Prod.mk.inj hout
      exact .handedOut fun c hc => Or.inl (Piggyback.mem_issued hc)
  | answer now senderChecksum =>
      have hanswer : Dealt n (n.answerWith now senderChecksum).1 []
          (n.answerWith now senderChecksum).2 := by
        rw [answerWith_fst]
        exact .handedOut fun c hc =>
          (Piggyback.mem_answer hc).imp_right fun hsnapshot => ⟨now.wall, hsnapshot⟩
      obtain ⟨rfl, hout⟩ := Attempt.done.inj h
      obtain ⟨rfl, rfl⟩ := Prod.mk.inj hout
      exact hanswer
  | configure patch =>
      have h : (match n.configure patch with
        | .ok n => .done n ([], [])
        | .error _ => .done n ([], [])) = Attempt.done n' (effects, sent) := h
      cases hconfigure : n.configure patch with
      | error e =>
          rw [hconfigure] at h
          obtain ⟨rfl, hout⟩ := Attempt.done.inj h
          obtain ⟨rfl, rfl⟩ := Prod.mk.inj hout
          exact .aside rfl rfl
      | ok configured =>
          rw [hconfigure] at h
          obtain ⟨rfl, hout⟩ := Attempt.done.inj h
          obtain ⟨rfl, rfl⟩ := Prod.mk.inj hout
          obtain ⟨merged, -, rfl⟩ := configure_eq_ok hconfigure
          exact .aside rfl rfl

/-! ## The invariant -/

/-- The claims that wait are rows of the table, which has one for each address. -/
structure Truthful (n : Node) : Prop where
  distinct : n.membership.Distinct
  mirrors : n.piggyback.Mirrors n.membership

/-- What was handed out was recorded, and about each address whose row has changed, or for which some
    claim took effect, the row waits as a claim that has not gone out. -/
structure Announced (n n' : Node) (effects sent : List Change) : Prop where
  held : ∀ c ∈ sent, n.membership.row? c.address = some c.toMember
  waits : ∀ address, n'.membership.row? address ≠ n.membership.row? address ∨
    address ∈ effects.map Change.address →
      ∃ p ∈ n'.piggyback.pending, p.change.address = address ∧ p.issued = 0 ∧
        n'.membership.row? address = some p.change.toMember

/-- A new node holds nothing and has nothing to say. -/
theorem truthful_createWith {hash : HashFunction} {address : String} {settings : Settings}
    {chance : Chance} (h : createWith hash address settings chance = .ok n) : n.Truthful := by
  obtain ⟨-, rfl⟩ := createWith_eq_ok h
  exact ⟨List.nodup_nil, Piggyback.mirrors_empty _ _⟩

namespace Truthful

/-- What the table reports is recorded on both sides. -/
theorem spread (h : n.Truthful) {m : Membership} (now : Moment)
    (hreported : n.membership.Reported (.done m effects)) :
    Truthful ({ n with membership := m }.spread now effects) where
  distinct := by
    rw [membership_spread]
    exact hreported.distinct h.distinct
  mirrors := by
    rw [membership_spread, piggyback_spread]
    exact (h.mirrors.recordAll effects).congr hreported

/-- A step that leaves the table alone. -/
theorem idle (h : n.Truthful) (hidle : n.Idles n') : n'.Truthful :=
  ⟨hidle.table ▸ h.distinct, hidle.table ▸ h.mirrors.of_sublist hidle.pending⟩

theorem dealt (h : n.Truthful) (hdealt : Dealt n n' effects sent) : n'.Truthful := by
  cases hdealt with
  | took hreported => exact h.spread _ hreported
  | handedOut _ => exact ⟨h.distinct, h.mirrors.issue⟩
  | aside htable hpending =>
      refine ⟨htable ▸ h.distinct, htable ▸ h.mirrors.of_sublist ?_⟩
      rw [hpending]

/-- **What changes a row lets it wait, and what goes out is a row.** -/
theorem announced (h : n.Truthful) (hdealt : Dealt n n' effects sent) :
    Announced n n' effects sent := by
  have hafter := h.dealt hdealt
  cases hdealt with
  | @took now m effects hreported =>
      refine ⟨fun c hc => absurd hc List.not_mem_nil, fun address hchanged => ?_⟩
      -- a row that is not the same any more was changed by an effect
      have heffect : address ∈ effects.map Change.address := by
        refine hchanged.elim (fun hrow => by_contra fun hnot => hrow ?_) id
        rw [membership_spread]
        exact hreported.row?_of_not_mem hnot
      obtain ⟨p, hp, rfl, hissued⟩ := n.piggyback.fresh_recordAll heffect
      have hwaits : p ∈ (({ n with membership := m } : Node).spread now effects).piggyback.pending := by
        rw [piggyback_spread]
        exact hp
      exact ⟨p, hwaits, rfl, hissued, hafter.mirrors.recorded p hwaits⟩
  | handedOut hsent =>
      refine ⟨fun c hc => ?_, fun address hchanged => ?_⟩
      · rcases hsent c hc with ⟨p, hp, rfl⟩ | ⟨now, hsnapshot⟩
        · exact h.mirrors.recorded p hp
        · obtain ⟨row, hrow, rfl⟩ := List.mem_map.mp hsnapshot
          exact (Membership.row?_eq_some_iff h.distinct).mpr ⟨hrow, rfl⟩
      · exact hchanged.elim (fun hrow => absurd rfl hrow) fun hmem => absurd hmem List.not_mem_nil
  | aside htable _ =>
      refine ⟨fun c hc => absurd hc List.not_mem_nil, fun address hchanged => ?_⟩
      rw [htable] at hchanged
      exact hchanged.elim (fun hrow => absurd rfl hrow) fun hmem => absurd hmem List.not_mem_nil

/-- **Along every run the claims that wait are rows.** -/
theorem deal (h : n.Truthful) (hdeal : n.deal dealings = .done n' ()) : n'.Truthful := by
  induction dealings generalizing n with
  | nil =>
      obtain ⟨rfl, -⟩ := Attempt.done.inj hdeal
      exact h
  | cons dealing rest ih =>
      rw [Node.deal] at hdeal
      obtain ⟨n₁, ⟨effects, sent⟩, hperform, hrest⟩ := Attempt.andThen_eq_done hdeal
      exact ih (h.dealt (dealt_of_perform hperform)) hrest

end Truthful

/-! ## Runs that stop -/

/-- Only an operation on the table stops, and then the claims that wait are as they were. -/
theorem eq_take_of_exhausted (h : dealing.perform n = .exhausted n') :
    ∃ now op, dealing = .take now op ∧ op.apply now n = .exhausted n' ∧
      n'.piggyback = n.piggyback ∧ n'.membership.localIncarnation = Membership.lastIncarnation := by
  cases dealing with
  | take now op =>
      have hstop := Attempt.map_eq_exhausted h
      refine ⟨now, op, rfl, hstop, ?_⟩
      rcases op.apply_cases now n with ⟨m, reported, _, hdone⟩ | ⟨m, hlast, happly⟩
      · rw [hdone] at hstop
        cases hstop
      · rw [happly] at hstop
        obtain rfl := Attempt.exhausted.inj hstop
        exact ⟨rfl, hlast⟩
  -- what only hands out cannot stop
  | ping => cases h
  | pingReq target chance => cases h
  | answer now senderChecksum => cases h
  | configure patch =>
      have h : (match n.configure patch with
        | .ok n => .done n ([], [])
        | .error _ => .done n ([], [])) =
          (Attempt.exhausted n' : Attempt Node (List Change × List Change)) := h
      cases hconfigure : n.configure patch with
      | error e =>
          rw [hconfigure] at h
          cases h
      | ok configured =>
          rw [hconfigure] at h
          cases h

/-- A run that stops does so in one of its operations, after completing what was before. -/
theorem deal_eq_exhausted (h : n.deal dealings = .exhausted n') :
    ∃ first dealing rest before, dealings = first ++ dealing :: rest ∧
      n.deal first = .done before () ∧ dealing.perform before = .exhausted n' := by
  induction dealings generalizing n with
  | nil => cases h
  | cons dealing rest ih =>
      rw [deal] at h
      rcases Attempt.andThen_eq_exhausted h with hstop | ⟨n₁, out, hperform, hrest⟩
      · exact ⟨[], dealing, rest, n, rfl, rfl, hstop⟩
      · obtain ⟨first, stopped, last, before, rfl, hfirst, hstop⟩ := ih hrest
        refine ⟨dealing :: first, stopped, last, before, rfl, ?_, hstop⟩
        rw [deal, hperform, Attempt.andThen_done]
        exact hfirst

/-- **The claims that wait are rows of the table, and so are all claims that go out.**

    In every state of a new node at most one claim about each address waits, and it has the status and
    the incarnation of the row. Whatever is done next, what goes out is recorded, and about every
    address whose row changes the new row waits as a claim that has not gone out yet. A run that is not
    completed stops at the largest incarnation, inside an operation on the table, and the claims that
    wait are those that waited before it. -/
theorem waiting_claims_are_rows {hash : HashFunction} {address : String} {settings : Settings}
    {chance : Chance} {node : Node} (hnode : createWith hash address settings chance = .ok node)
    (dealings : List Dealing) :
    (∀ n, node.deal dealings = .done n () →
      n.Truthful ∧
      ∀ (dealing : Dealing) n' effects sent, dealing.perform n = .done n' (effects, sent) →
        n'.Truthful ∧ Announced n n' effects sent) ∧
    (∀ n, node.deal dealings = .exhausted n →
      n.membership.localIncarnation = Membership.lastIncarnation ∧
      ∃ first now op rest before, dealings = first ++ .take now op :: rest ∧
        node.deal first = .done before () ∧ op.apply now before = .exhausted n ∧
        before.Truthful ∧ n.piggyback = before.piggyback) := by
  have hstart := truthful_createWith hnode
  constructor
  · intro n hdeal
    have htruthful := hstart.deal hdeal
    refine ⟨htruthful, fun dealing n' effects sent hperform => ?_⟩
    have hdealt := dealt_of_perform hperform
    exact ⟨htruthful.dealt hdealt, htruthful.announced hdealt⟩
  · intro n hdeal
    obtain ⟨first, dealing, rest, before, rfl, hfirst, hstop⟩ := deal_eq_exhausted hdeal
    obtain ⟨now, op, rfl, happly, hpiggyback, hlast⟩ := eq_take_of_exhausted hstop
    exact ⟨hlast, first, now, op, rest, before, rfl, hfirst, happly, hstart.deal hfirst, hpiggyback⟩

/-- The node `a` hears that `b` is alive and passes it on. Then claims are to go out only once, and one
    batch says that `b` is suspect and that it failed: the failure waits, and nothing else about `b`. -/
theorem waiting_claims_are_rows_after_failure :
    ∃ node n,
      createWith hash32 "a" { Settings.default with replicaPoints := 2 } .none = .ok node ∧
      node.deal
        [.take ⟨7, 0⟩ (.assert "a" .alive 1), .take ⟨7, 0⟩ .openGate,
          .take ⟨8, 1⟩ (.update [⟨"b", .alive, 3, "b", 3, 8⟩]), .ping,
          .configure (.obj [("maxPiggybackCount", .int 0)]),
          .take ⟨9, 2⟩ (.update [⟨"b", .suspect, 3, "c", 4, 9⟩, ⟨"b", .faulty, 3, "c", 4, 9⟩])] =
        .done n () ∧
      n.piggyback.limit = 0 ∧
      n.piggyback.pending =
        [⟨⟨"a", .alive, 1, "a", 0, 7⟩, 1⟩, ⟨⟨"b", .faulty, 3, "c", 4, 9⟩, 0⟩] ∧
      n.Truthful := by
  have hnode : createWith hash32 "a" { Settings.default with replicaPoints := 2 } .none = .ok _ := rfl
  refine ⟨_, _, hnode, Attempt.eq_done_of_result? ?_, ?_, ?_, ?_⟩
  · decide +kernel
  · decide +kernel
  · decide +kernel
  · exact ((waiting_claims_are_rows hnode _).1 _ (Attempt.eq_done_of_result? (by decide +kernel))).1

/-- **A stop leaves claims behind their rows.** The node `a` believes that it is alive at the largest
    incarnation, and passes on that `b` and `d` are. Then one batch says that `b` is suspect, that `d`
    failed, and that `a` is suspect, and stops at the last claim: what waits about `b` and `d` is no row
    any more, and it goes out with the next message. -/
theorem stop_leaves_claims_behind :
    ∃ node n n' sent,
      createWith hash32 "a" { Settings.default with replicaPoints := 2 } .none = .ok node ∧
      node.deal
        [.take ⟨7, 0⟩ (.assert "a" .alive 1), .take ⟨7, 0⟩ .openGate,
          .take ⟨8, 1⟩ (.update [⟨"a", .alive, 18446744073709551615, "b", 5, 8⟩,
            ⟨"b", .alive, 5, "b", 5, 8⟩, ⟨"d", .alive, 3, "d", 3, 8⟩]),
          .take ⟨9, 2⟩ (.update [⟨"b", .suspect, 5, "d", 3, 9⟩, ⟨"d", .faulty, 3, "b", 5, 9⟩,
            ⟨"a", .suspect, 18446744073709551615, "b", 5, 9⟩])] = .exhausted n ∧
      n.membership.row? "b" = some ⟨"b", .suspect, 5⟩ ∧
      n.membership.row? "d" = some ⟨"d", .faulty, 3⟩ ∧
      (n.piggyback.pending.map Pending.change).drop 1 =
        [⟨"b", .alive, 5, "b", 5, 8⟩, ⟨"d", .alive, 3, "d", 3, 8⟩] ∧
      Dealing.ping.perform n = .done n' ([], sent) ∧
      ⟨"d", .alive, 3, "d", 3, 8⟩ ∈ sent := by
  refine ⟨_, _, _, _, rfl, Attempt.eq_exhausted_of_result? ?_, ?_, ?_, ?_, rfl, ?_⟩
  all_goals decide +kernel

end

end Node

end GossipRing
