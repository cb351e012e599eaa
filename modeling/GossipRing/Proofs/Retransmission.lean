import GossipRing.Proofs.NodeSteps
import GossipRing.Proofs.Standings
import Mathlib.Algebra.GroupWithZero.Nat
import Mathlib.Algebra.Order.BigOperators.Group.List

/-!
# How long gossip goes on

Toward: whether the claims that circulate about a member die out. A claim that takes effect rides
along on a limited number of messages, so gossip goes on as long as claims take effect.

* **`Piggyback.credit`** — how often claims about a member may still go out. Recording a claim adds
  to it (`credit_recordAll`), and handing claims out uses it up (`credit_issue`).
* **`Node.Relay`**, **`Node.relay`** — a node that hears claims and sends pings, in any order.
  `relay_credit`: what it sends is paid for by what took effect.
* **`Node.gossip_dies_out_iff`** — gossip about a member dies out exactly if no claim recalls
  another.
-/

open GossipRing.Membership (concerning concerning_cons_self concerning_cons_of_ne course Ascends
  Circulates Reopens Records candidates claimsAbout mem_claimsAbout delivered Delivery)

namespace GossipRing

/-! ## Credit -/

namespace Piggyback

/-- How often a claim that waits may still go out, if it is about this member. -/
def allowance (limit : ℕ) (address : String) (p : Pending) : ℕ :=
  if p.change.address = address then limit + 1 - p.issued else 0

/-- How often the claims about a member may still go out. -/
def credit (b : Piggyback) (address : String) : ℕ :=
  (b.pending.map (allowance b.limit.toNat address)).sum

/-- **What is handed out uses up credit.** -/
theorem credit_issue (b : Piggyback) (address : String) :
    b.issue.1.credit address + (concerning address b.issue.2).length = b.credit address := by
  -- a live entry spends one unit of credit on the message that it rides on
  have hsum : ∀ pending : List Pending,
      (((pending.filter b.isLive).map fun p => { p with issued := p.issued + 1 }).map
          (allowance b.limit.toNat address)).sum +
        (concerning address ((pending.filter b.isLive).map Pending.change)).length =
      (pending.map (allowance b.limit.toNat address)).sum := by
    intro pending
    induction pending with
    | nil => rfl
    | cons p rest ih =>
        rw [List.map_cons, List.sum_cons, ← ih]
        by_cases hlive : b.isLive p
        · have hissued : p.issued ≤ b.limit.toNat := of_decide_eq_true hlive
          rw [List.filter_cons_of_pos hlive]
          by_cases habout : p.change.address = address
          · simp only [List.map_cons, List.sum_cons, concerning_cons_self habout,
              List.length_cons, allowance, habout, if_true]
            omega
          · simp only [List.map_cons, List.sum_cons, concerning_cons_of_ne habout,
              allowance, habout, if_false]
            omega
        · have hissued : b.limit.toNat < p.issued := by
            simpa [isLive] using hlive
          rw [List.filter_cons_of_neg hlive, allowance]
          split <;> omega
  exact hsum b.pending

/-- Recording a claim renews the credit of its member. -/
theorem credit_record (b : Piggyback) (c : Change) (address : String) :
    (b.record c).credit address ≤
      b.credit address + if c.address = address then b.limit.toNat + 1 else 0 := by
  have hkept : ((b.pending.filter fun p => p.change.address ≠ c.address).map
      (allowance b.limit.toNat address)).sum ≤ b.credit address :=
    (List.filter_sublist.map _).sum_le_sum fun _ _ => Nat.zero_le _
  have hsplit : (b.record c).credit address =
      ((b.pending.filter fun p => p.change.address ≠ c.address).map
        (allowance b.limit.toNat address)).sum + allowance b.limit.toNat address ⟨c, 0⟩ := by
    simp [credit, record]
  rw [hsplit]
  exact Nat.add_le_add_right hkept _

theorem limit_recordAll (b : Piggyback) (changes : List Change) :
    (b.recordAll changes).limit = b.limit := by
  induction changes generalizing b with
  | nil => rfl
  | cons c rest ih => exact ih (b.record c)

/-- **Each claim that is recorded adds a limited credit.** -/
theorem credit_recordAll (b : Piggyback) (changes : List Change) (address : String) :
    (b.recordAll changes).credit address ≤
      b.credit address + (b.limit.toNat + 1) * (concerning address changes).length := by
  induction changes generalizing b with
  | nil => exact Nat.le_add_right _ _
  | cons c rest ih =>
      have hrest := ih (b.record c)
      have hfirst := b.credit_record c address
      have hlimit : (b.record c).limit = b.limit := rfl
      rw [hlimit] at hrest
      show ((b.record c).recordAll rest).credit address ≤ _
      by_cases habout : c.address = address
      · rw [if_pos habout] at hfirst
        rw [concerning_cons_self habout, List.length_cons, Nat.mul_succ]
        omega
      · rw [if_neg habout] at hfirst
        rw [concerning_cons_of_ne habout]
        omega

/-- A claim that was just recorded goes out with the next message. -/
theorem mem_issue_record (b : Piggyback) (c : Change) : c ∈ (b.record c).issue.2 := by
  have hlive : (b.record c).isLive ⟨c, 0⟩ := decide_eq_true (Nat.zero_le _)
  refine List.mem_map.mpr ⟨⟨c, 0⟩, List.mem_filter.mpr ⟨?_, hlive⟩, rfl⟩
  exact List.mem_append_right _ (List.mem_singleton_self _)

end Piggyback

namespace Node

/-! ## Hearing and sending -/

/-- What a node does when it passes gossip on. Every message it sends hands out claims in the same
    way; a ping stands for all of them. -/
inductive Relay where
  | hear (now : Moment) (claims : List Change)
  | ping
  deriving DecidableEq, Repr

/-- What becomes of the node, with the claims that took effect and those that were sent. -/
def Relay.apply (n : Node) : Relay → Attempt Node (List Change × List Change)
  | hear now claims => (n.update now claims).map fun effects => (effects, [])
  | ping => .done n.composePing.1 ([], n.composePing.2.changes)

/-- One act after the other. The results list all claims that took effect, and all that were sent. -/
def relay (n : Node) : List Relay → Attempt Node (List Change × List Change)
  | [] => .done n ([], [])
  | act :: rest =>
    (act.apply n).andThen fun n out =>
      (relay n rest).map fun more => (out.1 ++ more.1, out.2 ++ more.2)

/-- What was heard, as deliveries to the table. -/
def heard : List Relay → List Delivery
  | [] => []
  | .hear now claims :: rest => ⟨now.wall, claims, false⟩ :: heard rest
  | .ping :: rest => heard rest

section

variable {n n' n₁ : Node} {acts : List Relay} {effects sent claims : List Change} {address : String}
  {m : Membership} {c d : Change}

/-- What a node hears is taken in by its table, and what took effect waits to be sent. -/
theorem update_eq_done {now : Moment} (h : n.update now claims = .done n' effects) :
    n.membership.update now.wall claims false = .done n'.membership effects ∧
      n'.piggyback = n.piggyback.recordAll effects := by
  obtain ⟨m, hupdate, rfl⟩ := settle_eq_done h
  rw [membership_spread, piggyback_spread]
  exact ⟨hupdate, rfl⟩

/-- What its table takes in, a node takes in. -/
theorem update_of_table (now : Moment)
    (h : n.membership.update now.wall claims false = .done m effects) :
    ∃ n', n.update now claims = .done n' effects ∧ n'.membership = m := by
  refine ⟨spread { n with membership := m } now effects, ?_, membership_spread _ _ _⟩
  rw [update, h]
  rfl

theorem relay_cons_eq_done {act : Relay} {out : List Change × List Change}
    (h : n.relay (act :: acts) = .done n' out) :
    ∃ n₁ first rest, act.apply n = .done n₁ first ∧ n₁.relay acts = .done n' rest ∧
      out = (first.1 ++ rest.1, first.2 ++ rest.2) := by
  rw [relay] at h
  obtain ⟨n₁, first, hact, hrest⟩ := Attempt.andThen_eq_done h
  obtain ⟨rest, hdone, rfl⟩ := Attempt.map_eq_done hrest
  exact ⟨n₁, first, rest, hact, hdone, rfl⟩

/-- The table takes in what the node hears. -/
theorem deliver_heard (h : n.relay acts = .done n' (effects, sent)) :
    n.membership.deliver (heard acts) = .done n'.membership effects := by
  induction acts generalizing n effects sent with
  | nil =>
      obtain ⟨rfl, hout⟩ := Attempt.done.inj h
      obtain ⟨rfl, -⟩ := Prod.mk.inj hout
      rfl
  | cons act rest ih =>
      obtain ⟨n₁, first, ⟨more, sent'⟩, hact, hrest, hout⟩ := relay_cons_eq_done h
      obtain ⟨rfl, -⟩ := Prod.mk.inj hout
      cases act with
      | hear now claims =>
          obtain ⟨es, hupdate, rfl⟩ := Attempt.map_eq_done hact
          rw [heard, Membership.deliver, (update_eq_done hupdate).1, Attempt.andThen_done, ih hrest,
            Attempt.map_done]
      | ping =>
          obtain ⟨rfl, rfl⟩ := Attempt.done.inj hact
          have hdone := ih hrest
          exact hdone

/-- **What is sent about a member is paid for by the claims about it that took effect.** -/
theorem relay_credit (address : String) (h : n.relay acts = .done n' (effects, sent)) :
    n'.piggyback.credit address + (concerning address sent).length ≤
      n.piggyback.credit address +
        (n.piggyback.limit.toNat + 1) * (concerning address effects).length := by
  induction acts generalizing n effects sent with
  | nil =>
      obtain ⟨rfl, hout⟩ := Attempt.done.inj h
      obtain ⟨rfl, rfl⟩ := Prod.mk.inj hout
      exact Nat.le_refl _
  | cons act rest ih =>
      obtain ⟨n₁, first, ⟨more, sent'⟩, hact, hrest, hout⟩ := relay_cons_eq_done h
      obtain ⟨rfl, rfl⟩ := Prod.mk.inj hout
      have hmore := ih hrest
      cases act with
      -- hearing grants a full allowance for each effect
      | hear now claims =>
          obtain ⟨es, hupdate, rfl⟩ := Attempt.map_eq_done hact
          have hrecorded := n.piggyback.credit_recordAll es address
          have hpiggyback := (update_eq_done hupdate).2
          rw [hpiggyback, Piggyback.limit_recordAll] at hmore
          show _ + (concerning address sent').length ≤ _ + _ * (concerning address (es ++ more)).length
          rw [Membership.concerning_append, List.length_append, Nat.mul_add]
          omega
      -- a ping spends what is granted
      | ping =>
          obtain ⟨rfl, rfl⟩ := Attempt.done.inj hact
          have hissued := n.piggyback.credit_issue address
          have hmore : n'.piggyback.credit address + (concerning address sent').length ≤
              n.piggyback.issue.1.credit address +
                (n.piggyback.limit.toNat + 1) * (concerning address more).length := hmore
          have hsent : (concerning address (n.piggyback.issue.2 ++ sent')).length =
              (concerning address n.piggyback.issue.2).length + (concerning address sent').length := by
            rw [Membership.concerning_append, List.length_append]
          show _ + (concerning address (n.piggyback.issue.2 ++ sent')).length ≤
            _ + _ * (concerning address more).length
          omega

/-! ## Gossip without end -/

/-- The node can hear some of the claims, and pass on so many claims about the member. -/
def CanSend (n : Node) (claims : List Change) (address : String) (count : ℕ) : Prop :=
  ∃ acts n' effects sent, (∀ c ∈ delivered (heard acts), c ∈ claims) ∧
    n.relay acts = .done n' (effects, sent) ∧ count ≤ (concerning address sent).length

variable {count : ℕ}

theorem canSend_zero (n : Node) (claims : List Change) (address : String) :
    CanSend n claims address 0 :=
  ⟨[], n, [], [], fun _ hc => absurd hc List.not_mem_nil, rfl, Nat.zero_le _⟩

theorem CanSend.hear {now : Moment} {batch : List Change} (hbatch : ∀ c ∈ batch, c ∈ claims)
    (hupdate : n.update now batch = .done n₁ effects) (h : CanSend n₁ claims address count) :
    CanSend n claims address count := by
  obtain ⟨acts, n', more, sent, hclaims, hrelay, hcount⟩ := h
  refine ⟨.hear now batch :: acts, n', effects ++ more, sent, ?_, ?_, hcount⟩
  · intro c hc
    rcases List.mem_append.mp hc with hc | hc
    · exact hbatch c hc
    · exact hclaims c hc
  · rw [relay, Relay.apply, hupdate, Attempt.map_done, Attempt.andThen_done, hrelay,
      Attempt.map_done, List.nil_append]

theorem CanSend.ping (hc : c ∈ n.piggyback.issue.2) (habout : c.address = address)
    (h : CanSend n.composePing.1 claims address count) : CanSend n claims address (count + 1) := by
  obtain ⟨acts, n', effects, sent, hclaims, hrelay, hcount⟩ := h
  refine ⟨.ping :: acts, n', effects, n.piggyback.issue.2 ++ sent, hclaims, ?_, ?_⟩
  · rw [relay, Relay.apply, Attempt.andThen_done, hrelay, Attempt.map_done, List.nil_append]
    rfl
  · have hmem : c ∈ concerning address n.piggyback.issue.2 :=
      List.mem_filter.mpr ⟨hc, decide_eq_true habout⟩
    have hpos := List.length_pos_of_mem hmem
    rw [Membership.concerning_append, List.length_append]
    omega

/-- Whatever its table can take in, a node can hear. -/
theorem CanSend.of_deliver {deliveries : List Delivery} (hready : n.membership.isReady)
    (hclaims : ∀ c ∈ delivered deliveries, c ∈ claims)
    (hdone : n.membership.deliver deliveries = .done m effects)
    (h : ∀ n' : Node, n'.membership = m → CanSend n' claims address count) :
    CanSend n claims address count := by
  induction deliveries generalizing n effects with
  | nil => exact h n (Attempt.done.inj hdone).1
  | cons d rest ih =>
      rw [Membership.deliver] at hdone
      obtain ⟨m₁, first, hupdate, hrest⟩ := Attempt.andThen_eq_done hdone
      obtain ⟨more, hdone, -⟩ := Attempt.map_eq_done hrest
      -- no delivery closes the gate
      have hready₁ : m₁.isReady := by
        rcases Membership.gate_update hupdate with hgate | ⟨hclosed, -⟩
        · rw [Membership.isReady, hgate]
          exact hready
        · rw [hready] at hclosed
          cases hclosed
      have hheard : n.membership.update d.now d.claims false = .done m₁ first := by
        rw [← hupdate, Membership.update, Membership.update, hready]
        rfl
      obtain ⟨n₁, hstep, rfl⟩ := update_of_table ⟨d.now, 0⟩ hheard
      refine CanSend.hear (fun c hc => hclaims c (List.mem_append_left _ hc)) hstep ?_
      exact ih hready₁ (fun c hc => hclaims c (List.mem_append_right _ hc)) hdone

/-- A node hears a claim that overrides the row of another member, and passes it on. -/
theorem exists_hear {old : Member} (h : Records n.membership old) (hc : c ∈ claimsAbout address claims)
    (habout : old.address = address) (hover : Precedence.overrides old c) :
    ∃ n₁, n.update ⟨0, 0⟩ [c] = .done n₁ [c] ∧ Records n₁.membership c.toMember ∧
      c ∈ n₁.piggyback.issue.2 := by
  obtain ⟨-, hnamed, hsame⟩ := mem_claimsAbout.mp hc
  obtain ⟨m', hupdate, hrecords⟩ := h.update 0 hnamed (hsame.trans habout.symm) hover
  obtain ⟨n₁, hstep, rfl⟩ := update_of_table ⟨0, 0⟩ hupdate
  refine ⟨n₁, hstep, hrecords, ?_⟩
  rw [(update_eq_done hstep).2]
  exact Piggyback.mem_issue_record n.piggyback c

/-- **A node passes on a leave and a tombstone of one incarnation as often as one likes.** -/
theorem canSend_of_recalls (hc : c ∈ claimsAbout address claims) (hd : d ∈ claimsAbout address claims)
    (hrecalls : c.toMember.Recalls d.toMember) (h : Records n.membership d.toMember) (count : ℕ) :
    CanSend n claims address count := by
  obtain ⟨hleaves, hreaps⟩ := Membership.overrides_of_recalls hrecalls
  obtain ⟨hcmem, -, hcabout⟩ := mem_claimsAbout.mp hc
  obtain ⟨hdmem, -, hdabout⟩ := mem_claimsAbout.mp hd
  induction count generalizing n with
  | zero => exact canSend_zero n claims address
  | succ count ih =>
      obtain ⟨n₁, hleft, hrecords₁, hwaits⟩ := exists_hear h hc hdabout hleaves
      obtain ⟨n₂, hreaped, hrecords₂, -⟩ :=
        exists_hear (n := n₁.composePing.1) hrecords₁ hd hcabout hreaps
      -- the leave is heard and sent, and the tombstone makes room for the next leave
      have hagain : CanSend n₁.composePing.1 claims address count :=
        CanSend.hear (fun e he => List.mem_singleton.mp he ▸ hdmem) hreaped (ih hrecords₂)
      exact CanSend.hear (fun e he => List.mem_singleton.mp he ▸ hcmem) hleft
        (CanSend.ping hwaits hcabout hagain)

/-- **Gossip about a member dies out exactly if no claim recalls another.** -/
theorem canSend_bounded_iff (hready : n.membership.isReady) (hremote : address ≠ n.membership.here)
    (claims : List Change) :
    (∃ bound, ∀ count, CanSend n claims address count → count ≤ bound) ↔
      ¬Reopens (n.membership.row? address) (candidates none (claimsAbout address claims))
        (claimsAbout address claims) := by
  constructor
  · rintro ⟨bound, hbound⟩ ⟨c, hc, hle, row, hrow | ⟨d, hd, rfl⟩, hrecalls⟩
    · cases hrow
    · obtain ⟨effects, m, ⟨deliveries, hclaims, hdone⟩, hrecords⟩ :=
        Membership.exists_reaped hc hd hrecalls hready hremote hle
      -- claims that reopen each other have effects without end, and each effect is handed out
      have hmany : CanSend n claims address (bound + 1) := by
        refine CanSend.of_deliver hready hclaims hdone ?_
        rintro n' rfl
        exact canSend_of_recalls hc hd hrecalls hrecords (bound + 1)
      exact absurd (hbound _ hmany) (Nat.not_succ_le_self bound)
  · intro hnot
    refine ⟨n.piggyback.credit address +
      (n.piggyback.limit.toNat + 1) * (claimsAbout address claims).length, ?_⟩
    rintro count ⟨acts, n', effects, sent, hclaims, hrelay, hcount⟩
    have hcirculates : Circulates n.membership claims effects n'.membership :=
      ⟨heard acts, hclaims, deliver_heard hrelay⟩
    have hlength := (hcirculates.traced hready hremote).length_le hnot
    have hcredit := relay_credit address hrelay
    have hmul := Nat.mul_le_mul_left (n.piggyback.limit.toNat + 1) hlength
    omega

/-- **Gossip about a member dies out, unless the member is said to have left at the incarnation at
    which it is said to be reaped.**

    A claim that takes effect on the row of another member raises its standing, by incarnation and
    then by how bad the status is, or it recalls a tombstone: leave and tombstone override each other
    at one incarnation. So it is for every claim, and along every run of deliveries. The claims that
    circulate decide what comes of it. Unless one of them recalls another or the row that the member
    has, the standing always rises. Unless one recalls another, no row comes back, the row changes
    only so often, and a node passes claims about the member on only so often. Where one of them does
    recall another, and the row is not newer, the row comes back to what it was, and both go on
    without end. -/
theorem gossip_dies_out_iff (hready : m.isReady) (hremote : address ≠ m.here)
    (claims : List Change) :
    (∀ now (t t' : Membership) c e row, c.address ≠ t.here → t.row? c.address = some row →
      Membership.apply now t c = .done t' (some e) →
        e = c ∧ t'.row? c.address = some c.toMember ∧ c.toMember.Supersedes row) ∧
    (∀ deliveries m' effects, m.deliver deliveries = .done m' effects →
      Ascends (course address (m.row? address) effects) ∧
        (course address (m.row? address) effects).getLast? = m'.row? address) ∧
    ((∀ effects m', m.Circulates claims effects m' →
        ((course address (m.row? address) effects).map Member.standing).Pairwise (· < ·)) ↔
      ¬Reopens (m.row? address) (candidates (m.row? address) (claimsAbout address claims))
        (claimsAbout address claims)) ∧
    ((∀ effects m', m.Circulates claims effects m' →
        (course address (m.row? address) effects).Nodup) ↔
      ¬Reopens (m.row? address) (candidates none (claimsAbout address claims))
        (claimsAbout address claims)) ∧
    ((∃ bound, ∀ effects m', m.Circulates claims effects m' →
        (concerning address effects).length ≤ bound) ↔
      ¬Reopens (m.row? address) (candidates none (claimsAbout address claims))
        (claimsAbout address claims)) ∧
    (∀ n : Node, n.membership = m →
      ((∃ bound, ∀ count, n.CanSend claims address count → count ≤ bound) ↔
        ¬Reopens (m.row? address) (candidates none (claimsAbout address claims))
          (claimsAbout address claims))) := by
  refine ⟨?_, ?_, Membership.rises_iff hready hremote claims,
    Membership.nodup_iff hready hremote claims, Membership.bounded_iff hready hremote claims, ?_⟩
  · intro now t t' c e row hother hrow happly
    by_cases haccepts : t.Accepts c
    · rw [Membership.apply_of_accepts now haccepts] at happly
      obtain ⟨rfl, heffect⟩ := Attempt.done.inj happly
      obtain rfl := Option.some.inj heffect
      have hover := ((Membership.accepts_iff_of_some hrow).mp haccepts).1
      refine ⟨rfl, ?_, Precedence.supersedes_of_overrides hover⟩
      rw [Membership.row?_put]
      exact if_pos rfl
    · rw [Membership.apply_of_not now haccepts (Membership.not_refutes_of_remote hother)] at happly
      cases (Attempt.done.inj happly).2
  · intro deliveries m' effects hdone
    have htraced := Membership.traced_deliver hready hremote hdone
    exact ⟨htraced.ascends, htraced.last⟩
  · rintro n rfl
    exact canSend_bounded_iff hready hremote claims

/-- The node `a` suspects `b`. That `b` failed and that it is back at a greater incarnation can be
    told as often as one likes: no row comes back. -/
theorem gossip_dies_out_iff_after_failure :
    (Membership.mk "a" [⟨"b", .suspect, 3⟩] none .opened hash32 [] .none).isReady ∧ "b" ≠ "a" ∧
    ∀ effects m', (Membership.mk "a" [⟨"b", .suspect, 3⟩] none .opened hash32 [] .none).Circulates
        [⟨"b", .faulty, 3, "d", 1, 6⟩, ⟨"b", .alive, 4, "b", 4, 7⟩] effects m' →
      (course "b" (some ⟨"b", .suspect, 3⟩) effects).Nodup := by
  refine ⟨by decide, by decide, ?_⟩
  refine (gossip_dies_out_iff (by decide) (by decide) _).2.2.2.1.mpr ?_
  rintro ⟨c, hc, -, row, -, hleave, -⟩
  -- nobody is said to have left
  have hclaims : ∀ c ∈ claimsAbout "b" [⟨"b", .faulty, 3, "d", 1, 6⟩, ⟨"b", .alive, 4, "b", 4, 7⟩],
      c.status ≠ .leave := by decide
  exact hclaims c hc hleave

/-- The node `a` has reaped `b` at incarnation 5. That `b` left at incarnation 5 takes effect, and
    that it was reaped at incarnation 5 takes effect again: the row sinks, and comes back. -/
theorem reaped_row_comes_back :
    ∃ m', (Membership.mk "a" [⟨"b", .tombstone, 5⟩] none .opened hash32 [] .none).deliver
        [⟨7, [⟨"b", .leave, 5, "b", 5, 6⟩], false⟩, ⟨8, [⟨"b", .tombstone, 5, "d", 1, 7⟩], false⟩] =
          .done m' [⟨"b", .leave, 5, "b", 5, 6⟩, ⟨"b", .tombstone, 5, "d", 1, 7⟩] ∧
      m'.row? "b" = some ⟨"b", .tombstone, 5⟩ ∧
      (Member.mk "b" .leave 5).standing < (Member.mk "b" .tombstone 5).standing := by
  refine ⟨_, Attempt.eq_done_of_result? ?_, ?_, ?_⟩
  · decide +kernel
  · decide +kernel
  · exact Member.standing_lt_iff.mpr (Or.inr ⟨rfl, by decide⟩)

end

end Node

end GossipRing
