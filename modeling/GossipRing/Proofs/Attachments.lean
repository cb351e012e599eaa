import GossipRing.Proofs.WaitingClaims

/-!
# How many messages carry a claim

Toward: whether a claim goes out as often as it may before it is dropped. It is counted when a message is
written, not when one leaves. A ping leaves once, and so does an answer. A request for help leaves once
for each helper; where there are no helpers it does not leave at all, and the claims are counted all the
same.

* **`Node.Dealing.messages`** — the messages that leave, each as the claims that it carries.
* **`Node.waits_cases`** — a claim that waits rides along on all of them and is counted once, or it has
  gone out often enough and is dropped.
* **`Node.Undisturbed`** — a run in which nothing takes effect about a member, and the limit stays.
* **`Node.tally`** — a count summed over a run: of the messages that carry a claim (`carried`), the
  requests for help that nobody gets (`unheard`), and the messages beyond the first of each dealing
  (`surplus`). `Undisturbed.balance`: how often a claim was counted is what these come to.
* **`Node.carried_iff`** — a claim goes out as often as it may exactly if not too many requests for help
  were heard by nobody.
-/

namespace GossipRing

namespace Piggyback

variable {b : Piggyback} {p q : Pending} {changes : List Change}

/-- A claim is left alone as long as nothing is recorded about its member. -/
theorem mem_recordAll_of_not_mem (h : p ∈ b.pending)
    (hother : p.change.address ∉ changes.map Change.address) : p ∈ (b.recordAll changes).pending := by
  induction changes generalizing b with
  | nil => exact h
  | cons c rest ih =>
      rw [List.map_cons, List.mem_cons, not_or] at hother
      refine ih ?_ hother.2
      exact List.mem_append_left _ (List.mem_filter.mpr ⟨h, decide_eq_true hother.1⟩)

/-- A claim that may still go out is handed out and counted. -/
theorem mem_issue_of_live (h : p ∈ b.pending) (hlive : p.issued ≤ b.limit.toNat) :
    { p with issued := p.issued + 1 } ∈ b.issue.1.pending ∧ p.change ∈ b.issue.2 := by
  have hmem : p ∈ b.pending.filter b.isLive := List.mem_filter.mpr ⟨h, decide_eq_true hlive⟩
  exact ⟨List.mem_map_of_mem (f := fun p : Pending => { p with issued := p.issued + 1 }) hmem,
    List.mem_map_of_mem hmem⟩

/-- A claim that has gone out often enough is dropped. -/
theorem not_mem_issue_of_spent {m : Membership} (hmirrors : b.Mirrors m) (h : p ∈ b.pending)
    (hspent : b.limit.toNat < p.issued) (hq : q ∈ b.issue.1.pending) : q.change ≠ p.change := by
  intro hsame
  obtain ⟨kept, hkept, rfl⟩ := List.mem_map.mp hq
  obtain ⟨hmem, hlive⟩ := List.mem_filter.mp hkept
  have hle : kept.issued ≤ b.limit.toNat := of_decide_eq_true hlive
  obtain rfl : kept = p :=
    List.inj_on_of_nodup_map hmirrors.single hmem h (congrArg Change.address hsame)
  exact absurd hspent (Nat.not_lt.mpr hle)

/-- A message is answered with the claims that wait, if there are any. -/
theorem answer_snd_of_mem {c : Change} (h : c ∈ b.issue.2) (checksum : Option UInt32)
    (m : Membership) (now : Clock) : (b.answer checksum m now).2 = b.issue.2 := by
  have hsome : b.issue.2.isEmpty = false := by
    rw [List.isEmpty_eq_false_iff]
    exact List.ne_nil_of_mem h
  rw [answer]
  dsimp only
  rw [hsome, Bool.false_and]
  rfl

end Piggyback

namespace Node

/-! ## What leaves -/

/-- The dealing hands claims out. -/
def Dealing.handsOut : Dealing → Bool
  | ping => true
  | pingReq _ _ => true
  | answer _ _ => true
  | _ => false

/-- The messages that leave, each as the claims that it carries. A request for help goes to every
    helper. -/
def Dealing.messages (n : Node) : Dealing → List (List Change)
  | ping => [n.composePing.2.changes]
  | pingReq target chance =>
    let (helpers, request, _) := n.composePingReq target chance
    helpers.map fun _ => request.changes
  | answer now senderChecksum => [(n.answerWith now senderChecksum).2]
  | _ => []

/-- The claim waits, and has been counted so often. -/
def Waits (n : Node) (c : Change) (issued : ℕ) : Prop := ⟨c, issued⟩ ∈ n.piggyback.pending

instance (n : Node) (c : Change) (issued : ℕ) : Decidable (n.Waits c issued) :=
  inferInstanceAs (Decidable (_ ∈ _))

theorem not_waits_of_nil {n : Node} {c : Change} (h : n.piggyback.pending = []) (issued : ℕ) :
    ¬n.Waits c issued := by
  rw [Waits, h]
  exact List.not_mem_nil

/-- In this run the limit is `m` all along, and nothing takes effect about the member. -/
inductive Undisturbed (m : UInt32) (address : String) : Node → List Dealing → Node → Prop
  | nil {n : Node} (hlimit : n.piggyback.limit = m) : Undisturbed m address n [] n
  | cons {n n₁ n' : Node} {dealing : Dealing} {rest : List Dealing} {effects sent : List Change}
      (hlimit : n.piggyback.limit = m) (hperform : dealing.perform n = .done n₁ (effects, sent))
      (hother : address ∉ effects.map Change.address) (hrest : Undisturbed m address n₁ rest n') :
      Undisturbed m address n (dealing :: rest) n'

/-- A count, summed over the dealings of a run. -/
def tally (count : Node → Dealing → ℕ) (n : Node) : List Dealing → ℕ
  | [] => 0
  | dealing :: rest =>
    count n dealing +
      match dealing.perform n with
      | .done n' _ => tally count n' rest
      | .exhausted _ => 0

/-- How many messages carry the claim. -/
def carried (c : Change) : Node → List Dealing → ℕ :=
  tally fun n dealing => (dealing.messages n).countP fun message => c ∈ message

/-- How many requests for help are heard by nobody. -/
def unheard : Node → List Dealing → ℕ :=
  tally fun n dealing => if dealing.handsOut && (dealing.messages n).isEmpty then 1 else 0

/-- How many messages go out beside the first one of their dealing. -/
def surplus : Node → List Dealing → ℕ :=
  tally fun n dealing => (dealing.messages n).length - 1

section

variable {m : UInt32} {address : String} {c : Change} {k : ℕ} {n n₁ n' : Node} {dealing : Dealing}
  {dealings : List Dealing} {effects sent : List Change}

/-- Without a dealing that hands claims out nothing leaves. -/
theorem messages_of_not_handsOut (h : dealing.handsOut = false) : dealing.messages n = [] := by
  cases dealing with
  | take now op => rfl
  | configure patch => rfl
  | ping => cases h
  | pingReq target chance => cases h
  | answer now senderChecksum => cases h

/-- What hands claims out counts those that wait, and does nothing else. -/
theorem perform_of_handsOut (h : dealing.handsOut = true)
    (hperform : dealing.perform n = .done n₁ (effects, sent)) :
    n₁ = { n with piggyback := n.piggyback.issue.1 } := by
  cases dealing with
  | take now op => cases h
  | configure patch => cases h
  | ping => exact (Attempt.done.inj hperform).1.symm
  | pingReq target chance => exact (Attempt.done.inj hperform).1.symm
  | answer now senderChecksum =>
      rw [← answerWith_fst n now senderChecksum]
      exact (Attempt.done.inj hperform).1.symm

/-- **A claim that is handed out rides along on every message that leaves.** -/
theorem mem_of_mem_messages (h : c ∈ n.piggyback.issue.2) {message : List Change}
    (hmessage : message ∈ dealing.messages n) : c ∈ message := by
  cases dealing with
  | take now op => exact absurd hmessage List.not_mem_nil
  | configure patch => exact absurd hmessage List.not_mem_nil
  | ping =>
      obtain rfl := List.mem_singleton.mp hmessage
      exact h
  | pingReq target chance =>
      obtain ⟨helper, -, rfl⟩ := List.mem_map.mp hmessage
      exact h
  | answer now senderChecksum =>
      obtain rfl := List.mem_singleton.mp hmessage
      have hanswer := Piggyback.answer_snd_of_mem h senderChecksum n.membership now.wall
      rw [← hanswer] at h
      exact h

/-- Nothing else takes a claim away but another one about its member. -/
theorem waits_of_not_handsOut (h : dealing.handsOut = false)
    (hperform : dealing.perform n = .done n₁ (effects, sent))
    (hother : c.address ∉ effects.map Change.address) (hwaits : n.Waits c k) : n₁.Waits c k := by
  cases dealing with
  | take now op =>
      obtain ⟨taken, happly, hout⟩ := Attempt.map_eq_done hperform
      obtain ⟨rfl, -⟩ := Prod.mk.inj hout
      rcases op.apply_cases now n with ⟨m, reported, -, hdone⟩ | ⟨m, -, hstop⟩
      · obtain ⟨rfl, rfl⟩ := Attempt.done.inj (hdone.symm.trans happly)
        rw [Waits, piggyback_spread]
        -- recording claims about others does not replace it
        exact Piggyback.mem_recordAll_of_not_mem hwaits hother
      · cases hstop.symm.trans happly
  | configure patch =>
      rw [Dealing.perform] at hperform
      cases hconfigure : n.configure patch with
      | error e =>
          rw [hconfigure] at hperform
          obtain ⟨rfl, -⟩ := Attempt.done.inj hperform
          exact hwaits
      | ok configured =>
          rw [hconfigure] at hperform
          obtain ⟨rfl, -⟩ := Attempt.done.inj hperform
          obtain ⟨merged, -, rfl⟩ := configure_eq_ok hconfigure
          exact hwaits
  | ping => cases h
  | pingReq target chance => cases h
  | answer now senderChecksum => cases h

/-- **A claim that waits rides along on every message of a dealing, and is counted once**, or it has gone
    out often enough and is dropped. -/
theorem waits_cases (htruthful : n.Truthful)
    (hperform : dealing.perform n = .done n₁ (effects, sent))
    (hother : c.address ∉ effects.map Change.address) (hwaits : n.Waits c k) :
    dealing.handsOut = false ∧ n₁.Waits c k ∨
      dealing.handsOut = true ∧ k ≤ n.piggyback.limit.toNat ∧
        (∀ message ∈ dealing.messages n, c ∈ message) ∧ n₁.Waits c (k + 1) ∨
      dealing.handsOut = true ∧ n.piggyback.limit.toNat < k ∧ ∀ issued, ¬n₁.Waits c issued := by
  cases hout : dealing.handsOut with
  | false => exact Or.inl ⟨rfl, waits_of_not_handsOut hout hperform hother hwaits⟩
  | true =>
      have hcounted := perform_of_handsOut hout hperform
      subst hcounted
      by_cases hlive : k ≤ n.piggyback.limit.toNat
      · obtain ⟨hstays, hissued⟩ := Piggyback.mem_issue_of_live hwaits hlive
        exact Or.inr (Or.inl ⟨rfl, hlive, fun message => mem_of_mem_messages hissued, hstays⟩)
      · refine Or.inr (Or.inr ⟨rfl, Nat.not_le.mp hlive, fun issued hstays => ?_⟩)
        exact Piggyback.not_mem_issue_of_spent htruthful.mirrors hwaits (Nat.not_le.mp hlive) hstays rfl

/-- A claim that does not wait is not back before something takes effect about its member. -/
theorem not_waits_of_perform (hperform : dealing.perform n = .done n₁ (effects, sent))
    (hother : c.address ∉ effects.map Change.address) (hgone : ∀ issued, ¬n.Waits c issued)
    (issued : ℕ) : ¬n₁.Waits c issued := by
  intro hback
  cases dealt_of_perform hperform with
  | took _ =>
      rw [Waits, piggyback_spread] at hback
      rcases Piggyback.mem_recordAll hback with hwaits | heffect
      · exact hgone issued hwaits
      · exact hother (List.mem_map_of_mem heffect)
  | handedOut _ =>
      obtain ⟨q, hq, hsame⟩ := List.mem_map.mp
        (n.piggyback.issue_sublist.subset (List.mem_map_of_mem hback))
      obtain rfl : q.change = c := hsame
      exact hgone q.issued hq
  | aside _ hpending =>
      rw [Waits, hpending] at hback
      exact hgone issued hback

/-! ## Runs -/

theorem tally_cons {count : Node → Dealing → ℕ} {out : List Change × List Change}
    (h : dealing.perform n = .done n₁ out) :
    n.tally count (dealing :: dealings) = count n dealing + n₁.tally count dealings := by
  rw [tally, h]

namespace Undisturbed

theorem deal (h : Undisturbed m address n dealings n') : n.deal dealings = .done n' () := by
  induction h with
  | nil => rfl
  | cons _ hperform _ _ ih =>
      rw [Node.deal, hperform]
      exact ih

theorem limit (h : Undisturbed m address n dealings n') : n'.piggyback.limit = m := by
  induction h with
  | nil hlimit => exact hlimit
  | cons _ _ _ _ ih => exact ih

theorem not_waits (h : Undisturbed m c.address n dealings n') (hgone : ∀ issued, ¬n.Waits c issued) :
    ∀ issued, ¬n'.Waits c issued := by
  generalize haddress : c.address = address at h
  induction h with
  | nil => exact hgone
  | cons _ hperform hother _ ih =>
      exact ih (not_waits_of_perform hperform (haddress ▸ hother) hgone)

/-- **How often a claim has been counted** is how many messages have carried it, and how many requests for
    help that carried it nobody has heard, without the messages beyond the first of each dealing. -/
theorem balance (h : Undisturbed m c.address n dealings n') (htruthful : n.Truthful)
    (hwaits : n.Waits c k) (hk : k ≤ m.toNat + 1) (hstill : ∃ issued, n'.Waits c issued) :
    ∃ k' ≤ m.toNat + 1, n'.Waits c k' ∧
      n.carried c dealings + n.unheard dealings + k = k' + n.surplus dealings := by
  generalize haddress : c.address = address at h
  induction h generalizing k with
  | nil => exact ⟨k, hk, hwaits, Nat.zero_add k⟩
  | @cons n n₁ n' dealing rest effects sent hlimit hperform hother hrest ih =>
      rw [← haddress] at hother hrest
      have htruthful₁ := htruthful.dealt (dealt_of_perform hperform)
      rw [carried, unheard, surplus, tally_cons hperform, tally_cons hperform, tally_cons hperform]
      rw [carried, unheard, surplus] at ih
      rcases waits_cases htruthful hperform hother hwaits with
        ⟨hidle, hstays⟩ | ⟨hout, hle, hcarry, hstays⟩ | ⟨-, -, hgone⟩
      · -- nothing is handed out
        obtain ⟨k', hk', hlast, hbalance⟩ := ih htruthful₁ hstays hk hstill
        refine ⟨k', hk', hlast, ?_⟩
        rw [messages_of_not_handsOut hidle, hidle]
        simpa using hbalance
      · obtain ⟨k', hk', hlast, hbalance⟩ :=
          ih htruthful₁ hstays (Nat.succ_le_succ (hlimit ▸ hle)) hstill
        refine ⟨k', hk', hlast, ?_⟩
        -- every message of this dealing carries the claim, or there is none and the count is spent
        -- unheard
        have hall : (dealing.messages n).countP (fun message => c ∈ message) =
            (dealing.messages n).length :=
          List.countP_eq_length.mpr fun message hmessage => decide_eq_true (hcarry message hmessage)
        rw [hall, hout]
        cases hmessages : dealing.messages n with
        | nil =>
            simp only [List.length_nil, List.isEmpty_nil, Bool.and_self, if_true]
            omega
        | cons message more =>
            simp only [List.length_cons, List.isEmpty_cons, Bool.and_false, Bool.false_eq_true, if_false]
            omega
      · -- the claim has gone, against its still waiting at the end
        obtain ⟨issued, hlast⟩ := hstill
        exact absurd hlast (hrest.not_waits hgone issued)

end Undisturbed

/-- **A claim goes out as often as it may exactly if not too many requests for help are heard by nobody.**

    Let a claim be recorded in any state of a new node, and let anything happen after that, except that
    something takes effect about its member. As long as the limit is `m`, the claim is dropped after it
    has been counted `m + 1` times. Each time a message has carried it, or one for each helper, or a
    request for help that had nobody to go to. So at least `m` messages have carried it exactly if the
    requests that had nobody to go to were at most one more than the helpers beyond the first ones. -/
theorem carried_iff {hash : HashFunction} {address : String} {settings : Settings} {chance : Chance}
    {node n'' : Node} {before : List Dealing}
    (hnode : createWith hash address settings chance = .ok node) (hbefore : node.deal before = .done n ())
    (hnew : n.Waits c 0) (hrun : Undisturbed m c.address n dealings n') (hwaits : ∃ k, n'.Waits c k)
    (hperform : dealing.perform n' = .done n'' (effects, sent))
    (hother : c.address ∉ effects.map Change.address) (hdropped : ∀ k, ¬n''.Waits c k) :
    n.carried c dealings + n.unheard dealings = m.toNat + 1 + n.surplus dealings ∧
      (m.toNat ≤ n.carried c dealings ↔ n.unheard dealings ≤ n.surplus dealings + 1) := by
  have htruthful : n.Truthful := (truthful_createWith hnode).deal hbefore
  obtain ⟨k, hk, hlast, hbalance⟩ := hrun.balance htruthful hnew (Nat.zero_le _) hwaits
  have htruthful' : n'.Truthful := htruthful.deal hrun.deal
  have hspent : m.toNat < k := by
    rcases waits_cases htruthful' hperform hother hlast with
      ⟨-, hstays⟩ | ⟨-, -, -, hstays⟩ | ⟨-, hlt, -⟩
    · exact absurd hstays (hdropped k)
    · exact absurd hstays (hdropped (k + 1))
    · rwa [hrun.limit] at hlt
  have hall : n.carried c dealings + n.unheard dealings = m.toNat + 1 + n.surplus dealings := by
    omega
  refine ⟨hall, ?_⟩
  omega

/-- The node `a` hears that `f` has failed, and a claim is to go out twice. It rides along on a request to
    `d` and `e` and on an answer, and the ping after that drops it. -/
theorem carried_iff_with_helpers :
    ∃ node n n',
      createWith hash32 "a" { Settings.default with replicaPoints := 2, maxPiggybackCount := 1 } .none =
        .ok node ∧
      node.deal
        [.take ⟨7, 0⟩ (.assert "a" .alive 7), .take ⟨7, 0⟩ .openGate,
          .take ⟨8, 1⟩ (.update [⟨"b", .alive, 3, "b", 3, 8⟩, ⟨"d", .alive, 3, "d", 3, 8⟩,
            ⟨"e", .alive, 3, "e", 3, 8⟩, ⟨"f", .faulty, 2, "b", 3, 8⟩])] = .done n () ∧
      n.Waits ⟨"f", .faulty, 2, "b", 3, 8⟩ 0 ∧
      Undisturbed 1 "f" n [.pingReq ⟨"b", .alive, 3⟩ .none, .answer ⟨9, 2⟩ none] n' ∧
      n'.composePing.1.piggyback.pending = [] ∧
      1 ≤ n.carried ⟨"f", .faulty, 2, "b", 3, 8⟩
        [.pingReq ⟨"b", .alive, 3⟩ .none, .answer ⟨9, 2⟩ none] := by
  have hnode : createWith hash32 "a"
      { Settings.default with replicaPoints := 2, maxPiggybackCount := 1 } .none = .ok _ := rfl
  have hcarried := (@carried_iff 1 ⟨"f", .faulty, 2, "b", 3, 8⟩ _ _ .ping
    [.pingReq ⟨"b", .alive, 3⟩ .none, .answer ⟨9, 2⟩ none] [] _ hash32 "a" _ .none _ _
    [.take ⟨7, 0⟩ (.assert "a" .alive 7), .take ⟨7, 0⟩ .openGate,
      .take ⟨8, 1⟩ (.update [⟨"b", .alive, 3, "b", 3, 8⟩, ⟨"d", .alive, 3, "d", 3, 8⟩,
        ⟨"e", .alive, 3, "e", 3, 8⟩, ⟨"f", .faulty, 2, "b", 3, 8⟩])]
    hnode (Attempt.eq_done_of_result? (by decide +kernel)) (by decide +kernel)
    (.cons (by decide +kernel) rfl List.not_mem_nil
      (.cons (by decide +kernel) rfl List.not_mem_nil (.nil (by decide +kernel))))
    ⟨2, by decide +kernel⟩ rfl List.not_mem_nil (not_waits_of_nil (by decide +kernel))).2
  refine ⟨_, _, _, hnode, Attempt.eq_done_of_result? ?_, ?_,
    .cons ?_ rfl List.not_mem_nil (.cons ?_ rfl List.not_mem_nil (.nil ?_)), ?_,
    hcarried.mpr ?_⟩
  all_goals decide +kernel

/-- The node `a` hears that `f` has failed, and a claim is to go out four times. Twice it pings `b`, which
    does not answer, and finds nobody to help: the claim has gone out twice when it is dropped. -/
theorem carried_twice_of_three :
    ∃ node n n',
      createWith hash32 "a" { Settings.default with replicaPoints := 2, maxPiggybackCount := 3 } .none =
        .ok node ∧
      node.deal
        [.take ⟨7, 0⟩ (.assert "a" .alive 7), .take ⟨7, 0⟩ .openGate,
          .take ⟨8, 1⟩ (.update [⟨"b", .alive, 3, "b", 3, 8⟩, ⟨"f", .faulty, 2, "b", 3, 8⟩])] =
        .done n () ∧
      n.Waits ⟨"f", .faulty, 2, "b", 3, 8⟩ 0 ∧
      Undisturbed 3 "f" n
        [.ping, .pingReq ⟨"b", .alive, 3⟩ .none, .ping, .pingReq ⟨"b", .alive, 3⟩ .none] n' ∧
      n'.composePing.1.piggyback.pending = [] ∧
      n.carried ⟨"f", .faulty, 2, "b", 3, 8⟩
        [.ping, .pingReq ⟨"b", .alive, 3⟩ .none, .ping, .pingReq ⟨"b", .alive, 3⟩ .none] = 2 := by
  have hnode : createWith hash32 "a"
      { Settings.default with replicaPoints := 2, maxPiggybackCount := 3 } .none = .ok _ := rfl
  refine ⟨_, _, _, hnode, Attempt.eq_done_of_result? ?_, ?_,
    .cons ?_ rfl List.not_mem_nil (.cons ?_ rfl List.not_mem_nil (.cons ?_ rfl List.not_mem_nil
      (.cons ?_ rfl List.not_mem_nil (.nil ?_)))), ?_, ?_⟩
  all_goals decide +kernel

end

end Node

end GossipRing
