import GossipRing.Node.Bootstrap
import GossipRing.Proofs.Reconciliation
import GossipRing.Proofs.SuspicionTimers
import GossipRing.Wire.Message

/-!
# Behind the closed gate

Toward: a node that has not joined is by itself, and loses nothing it is told. Requests are answered
from the first moment on, long before the node knows anybody. What they tell it waits behind the gate.

* **`Node.Arrival`**, **`Node.receive`** — what comes to a node from outside, and what its operator and
  its own bootstrap attempts do, in any order. Bodies are any JSON at all.
* **`Arrival.received`** — the claims that an arrival brings.
* **`Node.Isolated`** — the node knows nobody but itself, and holds back exactly what it received.
  Every arrival keeps this (`Isolated.step`), and so does every run (`Isolated.receive`).
* **`Node.openGate_eq_update`** — an opened gate lets in what was held back as one batch.
* **`Node.gate_isolates`** — all of this for a new node.
-/

namespace GossipRing

namespace Membership

variable {now : Clock} {m m' : Membership} {claims : List Change} {address : String}
  {status : Status} {inc : UInt64}

/-- Behind the closed gate claims are held back. -/
theorem update_of_closed (hclosed : m.isReady = false) :
    m.update now claims false = .done (m.holdBack claims) [] := by
  rw [update, hclosed]
  rfl

/-- Behind the closed gate claims of the node's own are held back as well, but not that it is alive. -/
theorem assert_of_closed (hclosed : m.isReady = false) (hother : ¬(status = .alive ∧ address = m.here)) :
    m.assert now address status inc = .done (m.holdBack [m.ownClaim now address status inc]) [] := by
  have hpasses : (decide (status = .alive) && decide (address = m.here)) = false := by
    rw [← Bool.decide_and]
    exact decide_eq_false hother
  show m.update now [m.ownClaim now address status inc] _ = _
  rw [hpasses, update_of_closed hclosed]

/-- Nothing is held back where nothing is claimed. -/
theorem holdBack_nil (hgate : m.gate = .closed claims) : m.holdBack [] = m := by
  rw [holdBack, List.filter_nil, List.append_nil, hgate]
  show { m with gate := .closed claims } = m
  rw [← hgate]

/-- Where there is no other row, a row that is put is the only one. -/
theorem rows_put_of_alone {row : Member}
    (h : m.rows = [] ∨ ∃ old, m.rows = [old] ∧ old.address = row.address) :
    (m.put row).rows = [row] := by
  rcases h with hempty | ⟨old, hold, hsame⟩
  · have hnone : m.row? row.address = none := by rw [row?, hempty, List.find?_nil]
    have hfirst : (m.chance.draw (m.rows.length + 1)).1 = 0 := by
      have hbound := m.chance.draw_lt (Nat.succ_pos m.rows.length)
      rw [hempty] at hbound ⊢
      exact Nat.lt_one_iff.mp hbound
    rw [put, hnone]
    show m.rows.insertIdx (m.chance.draw (m.rows.length + 1)).1 row = [row]
    rw [hfirst, hempty]
    rfl
  · have hfound : m.row? row.address = some old := by
      rw [row?, hold]
      exact List.find?_cons_of_pos (decide_eq_true hsame)
    rw [put, hfound]
    show overwriteRow row m.rows = [row]
    rw [overwriteRow, hold, List.map_singleton, if_pos hsame]

end Membership

namespace Node

/-! ## What comes to a node -/

/-- What comes to a node, or is done with it, while it has not joined. A ping-req comes in four
    parts: it is received, a ping is relayed, the target may answer, and the sender is told. -/
inductive Arrival where
  | join (body : Json)
  | ping (body : Json)
  | pingReq (body : Json)
  | relay
  | pong (body : Json)
  | report (request : PingReqRequest) (reached : Bool)
  | tick (chance : Chance)
  | reap
  | bootstrap
  | failBootstrap
  | leave
  | rejoin
  | configure (patch : Json)
  | startGossip
  | stopGossip
  | destroy

/-- What becomes of the node. A body that cannot be read is refused. -/
def Arrival.apply (now : Moment) (n : Node) : Arrival → Attempt Node Unit
  | join body =>
    match JoinRequest.ofJson? body with
    | some r => (n.answerJoin now r).map fun _ => ()
    | none => .done n ()
  | ping body =>
    match PingRequest.ofJson? body with
    | some r => (n.answerPing now r).map fun _ => ()
    | none => .done n ()
  | pingReq body =>
    match PingReqRequest.ofJson? body with
    | some r => (n.receivePingReq now r).map fun _ => ()
    | none => .done n ()
  | relay => .done n.composePing.1 ()
  | pong body =>
    match PingResponse.ofJson? body with
    | some r => (n.absorb now r.changes).map fun _ => ()
    | none => .done n ()
  | report request reached => .done (n.answerPingReq now request reached).1 ()
  | tick chance => .done (n.pickTarget chance).2.1 ()
  | reap => (n.reap now).map fun _ => ()
  | bootstrap => (n.beginBootstrap now).map fun _ => ()
  | failBootstrap => .done n.failBootstrap ()
  | leave => (n.leave now).map fun _ => ()
  | rejoin => (n.rejoin now).map fun _ => ()
  | configure patch =>
    match n.configure patch with
    | .ok n' => .done n' ()
    | .error _ => .done n ()
  | startGossip => .done n.startGossip.1 ()
  | stopGossip => .done n.stopGossip.1 ()
  | destroy => .done n.destroy ()

/-- The node takes the sender of the request in. -/
def Admits (n : Node) (r : JoinRequest) : Prop := r.app = n.settings.app ∧ r.source ≠ n.address

instance (n : Node) (r : JoinRequest) : Decidable (n.Admits r) :=
  inferInstanceAs (Decidable (_ ∧ _))

/-- The claims of an arrival. A request to join that is not refused claims that its sender is alive. -/
def Arrival.claims (now : Moment) (n : Node) : Arrival → List Change
  | join body =>
    match JoinRequest.ofJson? body with
    | some r =>
      if n.Admits r then [n.membership.ownClaim now.wall r.source .alive r.incarnation] else []
    | none => []
  | ping body => ((PingRequest.ofJson? body).map PingRequest.changes).getD []
  | pingReq body => ((PingReqRequest.ofJson? body).map PingReqRequest.changes).getD []
  | pong body => ((PingResponse.ofJson? body).map PingResponse.changes).getD []
  | _ => []

/-- The claims of an arrival that are about somebody. -/
def Arrival.received (now : Moment) (n : Node) (arrival : Arrival) : List Change :=
  (arrival.claims now n).filter fun c => !c.isMalformed

/-- Arrivals one after the other. The result lists the claims received, in their order. -/
def receive (n : Node) : List (Moment × Arrival) → Attempt Node (List Change)
  | [] => .done n []
  | (now, arrival) :: rest =>
    (arrival.apply now n).andThen fun n' _ =>
      (receive n' rest).map fun more => arrival.received now n ++ more

/-- The node knows nobody but itself: no row, no server and no timer is another's. Its gate is closed
    and holds back exactly these claims. -/
structure Isolated (received : List Change) (n : Node) : Prop where
  here : n.membership.here = n.address
  gate : n.membership.gate = .closed received
  rows : n.membership.rows = [] ∨ ∃ inc, n.membership.rows = [⟨n.address, .alive, inc⟩]
  servers : ∀ s ∈ n.ring.servers, s = n.address
  timers : n.suspicion.timers = []

section

variable {now : Moment} {n n' : Node} {received changes : List Change} {arrival : Arrival}
  {arrivals : List (Moment × Arrival)}

theorem update_of_closed (hclosed : n.membership.isReady = false) :
    n.update now changes = .done { n with membership := n.membership.holdBack changes } [] := by
  rw [update, Membership.update_of_closed hclosed]
  rfl

theorem assert_of_closed {address : String} {status : Status} {inc : UInt64}
    (hclosed : n.membership.isReady = false)
    (hother : ¬(status = .alive ∧ address = n.membership.here)) :
    n.assert now address status inc =
      .done { n with
        membership :=
          n.membership.holdBack [n.membership.ownClaim now.wall address status inc] } [] := by
  rw [assert, Membership.assert_of_closed hclosed hother]
  rfl

/-- Where nobody may be probed nobody is picked. -/
theorem pickTarget_eq_none (h : ∀ row ∈ n.membership.rows, n.membership.isPingable row = false)
    (chance : Chance) : (n.pickTarget chance).1 = none := by
  refine Option.eq_none_iff_forall_ne_some.mpr fun target hpick => ?_
  obtain ⟨hrow, hpingable⟩ := row?_of_pickTarget hpick
  rw [h target (Membership.mem_of_row?_eq_some hrow).1] at hpingable
  cases hpingable

/-! ## Every arrival leaves the node by itself -/

namespace Isolated

/-- A new node has received nothing. -/
theorem createWith {hash : HashFunction} {address : String} {settings : Settings} {chance : Chance}
    (h : Node.createWith hash address settings chance = .ok n) : Isolated [] n := by
  obtain ⟨-, rfl⟩ := createWith_eq_ok h
  exact ⟨rfl, rfl, Or.inl rfl, fun s hs => absurd hs List.not_mem_nil, rfl⟩

theorem closed (h : Isolated received n) : n.membership.isReady = false := by
  rw [Membership.isReady, h.gate]
  rfl

/-- A step that leaves the table and the ring alone, and starts no timer. -/
theorem aside (h : Isolated received n) (haddress : n'.address = n.address)
    (htable : n'.membership = n.membership) (hring : n'.ring = n.ring)
    (htimers : n'.suspicion.timers = n.suspicion.timers ∨ n'.suspicion.timers = []) :
    Isolated received n' where
  here := by rw [htable, haddress, h.here]
  gate := by rw [htable, h.gate]
  rows := by rw [htable, haddress]; exact h.rows
  servers := by rw [hring, haddress]; exact h.servers
  timers := htimers.elim (·.trans h.timers) id

/-- Claims that are held back stand behind those received before. -/
theorem holdBack (h : Isolated received n) (claims : List Change) :
    Isolated (received ++ claims.filter fun c => !c.isMalformed)
      { n with membership := n.membership.holdBack claims } where
  here := h.here
  gate := by
    show Gate.closed (n.membership.gate.stash ++ _) = _
    rw [h.gate]
    rfl
  rows := h.rows
  servers := h.servers
  timers := h.timers

/-- The node's own row is put in, and the rest of the node hears of it. -/
theorem spread_own (h : Isolated received n) (now : Moment) {m : Membership} {c : Change}
    (habout : c.address = n.address) (halive : c.status = .alive) (hhere : m.here = n.membership.here)
    (hgate : m.gate = n.membership.gate) (hrows : m.rows = [c.toMember]) :
    Isolated received (({ n with membership := m } : Node).spread now [c]) where
  here := by
    rw [membership_spread, address_spread]
    exact hhere.trans h.here
  gate := by
    rw [membership_spread]
    exact hgate.trans h.gate
  rows := by
    rw [membership_spread, address_spread]
    refine Or.inr ⟨c.incarnation, hrows.trans ?_⟩
    rw [Change.toMember, habout, halive]
  servers s hs := by
    have hrecorded : ∀ a ∈ [c].map Change.address, (m.row? a).isSome := by
      intro a ha
      rw [Membership.isSome_row?_iff, hrows]
      exact ha
    rw [address_spread]
    rw [mem_servers_spread hrecorded] at hs
    split at hs
    · next hreported => exact (List.mem_singleton.mp hreported).trans habout
    · exact h.servers s hs
  timers := by
    -- nobody's life starts a timer; it only stops one, and there is none
    have hstopped : [c].foldl (track now.elapsed) n.suspicion = n.suspicion.stop c.address :=
      if_neg (halive ▸ by decide)
    rw [suspicion_spread]
    show ([c].foldl (track now.elapsed) n.suspicion).timers = []
    rw [hstopped, Suspicion.stop, h.timers]
    rfl

/-- The node may say that it is alive. -/
theorem assert_here (h : Isolated received n) (now : Moment) (inc : UInt64) :
    ∃ n' effects, n.assert now n.address .alive inc = .done n' effects ∧ Isolated received n' := by
  rw [Node.assert, ← h.here]
  rcases n.membership.assert_here now.wall inc with hsame | hput
  · rw [hsame]
    exact ⟨n, [], rfl, h⟩
  · rw [hput]
    refine ⟨_, _, rfl, h.spread_own now h.here rfl ?_ ?_ ?_⟩
    · exact (Membership.alike_conclude _ _).here.trans (Membership.here_put _ _)
    · exact (Membership.gate_conclude _ _).trans (Membership.gate_put _ _)
    · refine (Membership.rows_conclude _ _).trans (Membership.rows_put_of_alone (h.rows.imp_right ?_))
      rintro ⟨old, hold⟩
      exact ⟨_, hold, h.here.symm⟩

/-- **A request to join** is refused, or waits as the claim that its sender is alive. -/
theorem join (h : Isolated received n) (now : Moment) (body : Json) :
    ∃ n', (Arrival.join body).apply now n = .done n' () ∧
      Isolated (received ++ (Arrival.join body).received now n) n' := by
  rw [Arrival.received, Arrival.apply, Arrival.claims]
  cases JoinRequest.ofJson? body with
  | none => exact ⟨n, rfl, (List.append_nil received).symm ▸ h⟩
  | some r =>
      dsimp only
      -- a join that is refused leaves no claim behind
      by_cases hadmits : n.Admits r
      · obtain ⟨happ, hother⟩ := hadmits
        have hheld : ¬(Status.alive = .alive ∧ r.source = n.membership.here) := fun hlocal =>
          hother (hlocal.2.trans h.here)
        rw [if_pos ⟨happ, hother⟩, answerJoin, if_neg (not_not.mpr happ), if_neg hother,
          assert_of_closed h.closed hheld]
        exact ⟨_, rfl, h.holdBack _⟩
      · rw [if_neg hadmits]
        refine ⟨n, ?_, (List.append_nil received).symm ▸ h⟩
        rw [answerJoin]
        by_cases happ : r.app = n.settings.app
        · have hlocal : r.source = n.address := by_contra fun hother => hadmits ⟨happ, hother⟩
          rw [if_neg (not_not.mpr happ), if_pos hlocal]
          rfl
        · rw [if_pos happ]
          rfl

/-- A ping waits as the claims it carries. -/
theorem ping (h : Isolated received n) (now : Moment) (body : Json) :
    ∃ n', (Arrival.ping body).apply now n = .done n' () ∧
      Isolated (received ++ (Arrival.ping body).received now n) n' := by
  rw [Arrival.received, Arrival.apply, Arrival.claims]
  cases PingRequest.ofJson? body with
  | none => exact ⟨n, rfl, (List.append_nil received).symm ▸ h⟩
  | some r =>
      dsimp only
      rw [answerPing, update_of_closed h.closed]
      exact ⟨_, rfl, (h.holdBack r.changes).aside rfl rfl rfl (Or.inl rfl)⟩

/-- A ping-req leaves a node isolated, with its claims held back. -/
theorem pingReq (h : Isolated received n) (now : Moment) (body : Json) :
    ∃ n', (Arrival.pingReq body).apply now n = .done n' () ∧
      Isolated (received ++ (Arrival.pingReq body).received now n) n' := by
  rw [Arrival.received, Arrival.apply, Arrival.claims]
  cases PingReqRequest.ofJson? body with
  | none => exact ⟨n, rfl, (List.append_nil received).symm ▸ h⟩
  | some r =>
      dsimp only
      rw [receivePingReq, update_of_closed h.closed]
      exact ⟨_, rfl, h.holdBack r.changes⟩

/-- The answer to a relayed ping leaves a node isolated, with its claims held back. -/
theorem pong (h : Isolated received n) (now : Moment) (body : Json) :
    ∃ n', (Arrival.pong body).apply now n = .done n' () ∧
      Isolated (received ++ (Arrival.pong body).received now n) n' := by
  rw [Arrival.received, Arrival.apply, Arrival.claims]
  cases PingResponse.ofJson? body with
  | none => exact ⟨n, rfl, (List.append_nil received).symm ▸ h⟩
  | some r =>
      dsimp only [Option.map_some, Option.getD_some]
      rw [absorb]
      split
      · next hempty =>
        rw [List.isEmpty_iff.mp hempty]
        exact ⟨n, rfl, (List.append_nil received).symm ▸ h⟩
      · rw [update_of_closed h.closed]
        exact ⟨_, rfl, h.holdBack r.changes⟩

/-- There is no faulty member to reap. -/
theorem reap_eq (h : Isolated received n) (now : Moment) : n.reap now = .done n [] := by
  have hnobody : (n.membership.rows.filter fun row => row.status = .faulty) = [] := by
    rcases h.rows with hempty | ⟨inc, hrows⟩
    · rw [hempty]
      rfl
    · rw [hrows]
      rfl
  rw [Node.reap, hnobody]
  show ((n.update now []).map fun effects => effects.map Change.address) = _
  rw [update_of_closed h.closed, Membership.holdBack_nil h.gate]
  rfl

/-- **A bootstrap begins with the node's claim to be alive**, unless no incarnation is left. -/
theorem bootstrap (h : Isolated received n) (now : Moment) :
    (∃ n', Arrival.bootstrap.apply now n = .done n' () ∧ Isolated received n') ∨
    (Arrival.bootstrap.apply now n = .exhausted { n with bootstrapped := true } ∧ n.Spent) := by
  rw [Arrival.apply, beginBootstrap]
  split
  · exact Or.inl ⟨n, rfl, h⟩
  · split
    · exact Or.inl ⟨n, rfl, h⟩
    · dsimp only
      cases hfresh : n.membership.freshIncarnation? now.wall with
      | none => exact Or.inr ⟨rfl, Membership.localIncarnation_of_freshIncarnation? hfresh⟩
      | some inc =>
          have hbegun : Isolated received { n with bootstrapped := true } :=
            h.aside rfl rfl rfl (Or.inl rfl)
          obtain ⟨n', effects, hassert, hafter⟩ := hbegun.assert_here now inc
          have hassert : ({ n with bootstrapped := true } : Node).assert now n.address .alive inc =
            .done n' effects := hassert
          dsimp only
          rw [hassert]
          exact Or.inl ⟨n', rfl, hafter⟩

/-- A node that has not joined can neither leave nor come back. -/
theorem ownRow_eq_error (h : Isolated received n) : ∃ e, n.ownRow = .error e := by
  rw [ownRow, h.closed]
  cases n.membership.localRow? with
  | none => exact ⟨_, rfl⟩
  | some row => exact ⟨_, rfl⟩

theorem configure (h : Isolated received n) (now : Moment) (patch : Json) :
    ∃ n', (Arrival.configure patch).apply now n = .done n' () ∧ Isolated received n' := by
  rw [Arrival.apply, Node.configure]
  cases n.settings.merge patch with
  | error e => exact ⟨n, rfl, h⟩
  | ok merged =>
      dsimp only
      split
      · next hdone =>
        split at hdone
        · cases hdone
        · obtain rfl := Except.ok.inj hdone
          exact ⟨_, rfl, h.aside rfl rfl rfl (Or.inl rfl)⟩
      · exact ⟨n, rfl, h⟩

/-- **Every arrival leaves the node by itself**, and what it brings waits behind what was received
    before. Only a bootstrap can stop, when no incarnation is left. -/
theorem step (h : Isolated received n) (now : Moment) (arrival : Arrival) :
    (∃ n', arrival.apply now n = .done n' () ∧
      Isolated (received ++ arrival.received now n) n') ∨
    (arrival = .bootstrap ∧ arrival.apply now n = .exhausted { n with bootstrapped := true } ∧
      n.Spent) := by
  have hnothing : ∀ {n' : Node}, Isolated received n' → Isolated (received ++ []) n' := by
    intro n' h'
    rw [List.append_nil]
    exact h'
  cases arrival with
  | join body => exact Or.inl (h.join now body)
  | ping body => exact Or.inl (h.ping now body)
  | pingReq body => exact Or.inl (h.pingReq now body)
  | relay => exact Or.inl ⟨_, rfl, hnothing (h.aside rfl rfl rfl (Or.inl rfl))⟩
  | pong body => exact Or.inl (h.pong now body)
  | report request reached => exact Or.inl ⟨_, rfl, hnothing (h.aside rfl rfl rfl (Or.inl rfl))⟩
  | tick chance => exact Or.inl ⟨_, rfl, hnothing (h.aside rfl rfl rfl (Or.inl rfl))⟩
  | reap =>
      refine Or.inl ⟨n, ?_, hnothing h⟩
      rw [Arrival.apply, h.reap_eq]
      rfl
  -- only a bootstrap asserts anything, so only a bootstrap can stop
  | bootstrap =>
      rcases h.bootstrap now with ⟨n', hdone, hafter⟩ | hstop
      · exact Or.inl ⟨n', hdone, hnothing hafter⟩
      · exact Or.inr ⟨rfl, hstop⟩
  | failBootstrap => exact Or.inl ⟨_, rfl, hnothing (h.aside rfl rfl rfl (Or.inl rfl))⟩
  | leave =>
      obtain ⟨e, hrefused⟩ := h.ownRow_eq_error
      refine Or.inl ⟨n, ?_, hnothing h⟩
      rw [Arrival.apply, Node.leave, hrefused]
      rfl
  | rejoin =>
      obtain ⟨e, hrefused⟩ := h.ownRow_eq_error
      refine Or.inl ⟨n, ?_, hnothing h⟩
      rw [Arrival.apply, Node.rejoin, hrefused]
      rfl
  | configure patch =>
      obtain ⟨n', hdone, hafter⟩ := h.configure now patch
      exact Or.inl ⟨n', hdone, hnothing hafter⟩
  | startGossip =>
      refine Or.inl ⟨_, rfl, hnothing ?_⟩
      rw [Node.startGossip]
      split
      · exact h
      · exact h.aside rfl rfl rfl (Or.inl rfl)
  | stopGossip => exact Or.inl ⟨_, rfl, hnothing (h.aside rfl rfl rfl (Or.inl rfl))⟩
  | destroy =>
      refine Or.inl ⟨_, rfl, hnothing ?_⟩
      rw [Node.destroy]
      split
      · exact h
      · exact h.aside rfl rfl rfl (Or.inr rfl)

/-- **So does every run.** -/
theorem receive (h : Isolated received n) {more : List Change}
    (hreceive : n.receive arrivals = .done n' more) : Isolated (received ++ more) n' := by
  induction arrivals generalizing n received more with
  | nil =>
      obtain ⟨rfl, rfl⟩ := Attempt.done.inj hreceive
      rw [List.append_nil]
      exact h
  | cons entry rest ih =>
      obtain ⟨now, arrival⟩ := entry
      rw [Node.receive] at hreceive
      obtain ⟨n₁, out, happly, hrest⟩ := Attempt.andThen_eq_done hreceive
      obtain ⟨later, hlater, rfl⟩ := Attempt.map_eq_done hrest
      rcases h.step now arrival with ⟨n₂, hdone, hafter⟩ | ⟨-, hstop, -⟩
      · obtain ⟨rfl, -⟩ := Attempt.done.inj (hdone.symm.trans happly)
        rw [← List.append_assoc]
        exact ih hafter hlater
      · cases hstop.symm.trans happly

/-- A run stops only where a bootstrap finds no incarnation left, and the node is then as it was. -/
theorem receive_eq_exhausted (h : Isolated received n) (hreceive : n.receive arrivals = .exhausted n') :
    ∃ first now rest before more, arrivals = first ++ (now, .bootstrap) :: rest ∧
      n.receive first = .done before more ∧ before.Spent ∧
      n' = { before with bootstrapped := true } := by
  induction arrivals generalizing n received with
  | nil => cases hreceive
  | cons entry rest ih =>
      obtain ⟨now, arrival⟩ := entry
      rw [Node.receive] at hreceive
      rcases h.step now arrival with ⟨n₁, hdone, hafter⟩ | ⟨rfl, hstop, hspent⟩
      · rw [hdone, Attempt.andThen_done] at hreceive
        obtain ⟨first, now', last, before, more, rfl, hfirst, hstop⟩ :=
          ih hafter (Attempt.map_eq_exhausted hreceive)
        refine ⟨(now, arrival) :: first, now', last, before, arrival.received now n ++ more, rfl, ?_,
          hstop⟩
        rw [Node.receive, hdone, Attempt.andThen_done, hfirst, Attempt.map_done]
      · rw [hstop, Attempt.andThen_exhausted] at hreceive
        exact ⟨[], now, rest, n, [], rfl, rfl, hspent, (Attempt.exhausted.inj hreceive).symm⟩

/-- A node that is by itself has nobody to probe. -/
theorem pickTarget_eq_none (h : Isolated received n) (chance : Chance) :
    (n.pickTarget chance).1 = none := by
  refine Node.pickTarget_eq_none (fun row hrow => ?_) chance
  have hlocal : row.address = n.membership.here := by
    rcases h.rows with hempty | ⟨inc, hrows⟩
    · rw [hempty] at hrow
      exact absurd hrow List.not_mem_nil
    · rw [hrows] at hrow
      rw [List.mem_singleton.mp hrow, h.here]
  rw [Membership.isPingable, hlocal, decide_eq_false (not_not.mpr rfl), Bool.false_and]

end Isolated

/-! ## The gate opens -/

/-- The node with its gate open. -/
def opened (n : Node) : Node := { n with membership := { n.membership with gate := .opened } }

/-- **A node that opens its gate takes in what was held back as one batch.** -/
theorem openGate_eq_update (hgate : n.membership.gate = .closed received) (now : Moment) :
    n.openGate now = n.opened.update now received := by
  rw [openGate, Membership.openGate_eq_update, hgate]
  rfl

/-- Snapshots that are taken over as they are do not change that. -/
theorem gate_adopt_of_not_consumed (h : Isolated received n) {snapshots : List Snapshot}
    (hkept : (Snapshot.reconcile n.address snapshots received).consumedStash = false) (now : Moment) :
    (n.adopt now snapshots).1.membership.gate = .closed received := by
  have hstash : n.membership.gate.stash = received := by
    rw [h.gate]
    rfl
  rw [adopt, membership_spread]
  show (n.membership.adopt snapshots).1.gate = _
  rw [Membership.gate_adopt_of_not_consumed, h.gate]
  rw [h.here, hstash]
  exact hkept

/-- **The closed gate keeps a node by itself and loses nothing.**

    Whatever comes to a new node before it opens its gate, its table has at most its own row, its ring
    at most itself, it has no timers and nobody to probe, and it holds back all claims that it received
    about anybody, in the order of their arrival. If the gate opens then, the node takes them in as one
    batch. So it does after it has taken over snapshots that agree, or none.

    A run that is not completed stops where a bootstrap finds no incarnation left, and apart from that
    the bootstrap has begun the node is as it was before. -/
theorem gate_isolates {hash : HashFunction} {address : String} {settings : Settings} {chance : Chance}
    {node : Node} (hnode : createWith hash address settings chance = .ok node)
    (arrivals : List (Moment × Arrival)) :
    (∀ n received, node.receive arrivals = .done n received →
      Isolated received n ∧ (∀ chance, (n.pickTarget chance).1 = none) ∧
      (∀ now, n.openGate now = n.opened.update now received) ∧
      ∀ now snapshots, (Snapshot.reconcile n.address snapshots received).consumedStash = false →
        ∀ later, (n.adopt now snapshots).1.openGate later =
          (n.adopt now snapshots).1.opened.update later received) ∧
    (∀ n, node.receive arrivals = .exhausted n →
      ∃ first now rest before received, arrivals = first ++ (now, .bootstrap) :: rest ∧
        node.receive first = .done before received ∧ Isolated received before ∧ before.Spent ∧
        n = { before with bootstrapped := true }) := by
  have hstart := Isolated.createWith hnode
  constructor
  · intro n received hreceive
    have hisolated := hstart.receive hreceive
    rw [List.nil_append] at hisolated
    refine ⟨hisolated, hisolated.pickTarget_eq_none, openGate_eq_update hisolated.gate, ?_⟩
    intro now snapshots hkept later
    exact openGate_eq_update (gate_adopt_of_not_consumed hisolated hkept now) later
  · intro n hreceive
    obtain ⟨first, now, rest, before, received, harrivals, hfirst, hspent, hlast⟩ :=
      hstart.receive_eq_exhausted hreceive
    exact ⟨first, now, rest, before, received, harrivals, hfirst, hstart.receive hfirst, hspent, hlast⟩

/-- The node `a` begins to bootstrap. It hears from `b`, which asks to be taken in, and it is pinged
    with a claim that `c` is suspect and with something else. Then the bootstrap fails. -/
theorem gate_isolates_through_failure :
    ∃ node n,
      createWith hash32 "a" { Settings.default with replicaPoints := 2 } .none = .ok node ∧
      node.receive
        [(⟨7, 0⟩, .bootstrap),
          (⟨8, 1⟩, .join (.obj [("app", .str "swimring"), ("source", .str "b"),
            ("incarnationNumber", .int 3)])),
          (⟨9, 2⟩, .ping (.obj [("source", .str "b"), ("changes", .arr [.null,
            .obj [("address", .str "c"), ("status", .str "suspect"), ("incarnationNumber", .int 4)]])])),
          (⟨10, 3⟩, .reap), (⟨11, 4⟩, .tick .none), (⟨12, 5⟩, .failBootstrap)] =
        .done n [⟨"b", .alive, 3, "a", 7, 8⟩, ⟨"c", .suspect, 4, "", 0, 0⟩] ∧
      n.membership.rows = [⟨"a", .alive, 7⟩] ∧ n.ring.servers = ["a"] ∧
      Isolated [⟨"b", .alive, 3, "a", 7, 8⟩, ⟨"c", .suspect, 4, "", 0, 0⟩] n := by
  have hnode : createWith hash32 "a" { Settings.default with replicaPoints := 2 } .none = .ok _ := rfl
  refine ⟨_, _, hnode, Attempt.eq_done_of_result? ?_, ?_, ?_, ?_⟩
  · decide +kernel
  · decide +kernel
  · decide +kernel
  · exact ((gate_isolates hnode _).1 _ _ (Attempt.eq_done_of_result? (by decide +kernel))).1

end

end Node

end GossipRing
