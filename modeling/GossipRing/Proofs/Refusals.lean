import GossipRing.Network.Flow
import GossipRing.Proofs.NodeSteps

/-!
# What a node refuses

Toward: who is refused something has changed nothing. A node checks what is demanded of it in several
places: when a body is read, before and after settings are merged, at its own row, at the gate, and at
the two switches of a bootstrap.

* **`Demand`**, **`Demand.meet`** — what is demanded of a node, and what becomes of it.
* **`Refuses`** — the reasons for which a node refuses a demand, each with its error.
* **`Demand.meet_eq_error_iff`** — it refuses for these reasons only, and is left as it was.
* **`World.refusals`** — on a network, a node refuses a request when it arrives or not at all
  (`World.answer_of_refused`, `World.refusals_answer`, `World.refusals_takeRelayed`).
-/

namespace GossipRing

/-! ## Demands -/

/-- What is demanded of a node, and what it may refuse. -/
inductive Demand where
  | handle (endpoint : Endpoint) (body : Json)
  | configure (patch : Json)
  | leave
  | rejoin
  | bootstrap

/-- What becomes of a demand. A ping-req is received; what comes after that answers it in any case. -/
def Demand.meet (now : Moment) (n : Node) : Demand → Attempt Node (Except NodeError Unit)
  | handle .join body =>
    match JoinRequest.ofJson? body with
    | some r => (n.answerJoin now r).map fun answer => answer.map fun _ => ()
    | none => .done n (.error .badBody)
  | handle .ping body =>
    match PingRequest.ofJson? body with
    | some r => (n.answerPing now r).map fun _ => .ok ()
    | none => .done n (.error .badBody)
  | handle .pingReq body =>
    match PingReqRequest.ofJson? body with
    | some r => (n.receivePingReq now r).map fun _ => .ok ()
    | none => .done n (.error .badBody)
  | configure patch =>
    match n.configure patch with
    | .ok n' => .done n' (.ok ())
    | .error e => .done n (.error e)
  | leave => n.leave now
  | rejoin => n.rejoin now
  | bootstrap => n.beginBootstrap now

/-- The body is a request that the endpoint knows. -/
def Endpoint.CanRead : Endpoint → Json → Prop
  | join, body => (JoinRequest.ofJson? body).isSome
  | ping, body => (PingRequest.ofJson? body).isSome
  | pingReq, body => (PingReqRequest.ofJson? body).isSome

/-- The reasons for which a node refuses a demand. Of several the first one counts. -/
inductive Refuses (n : Node) : Demand → NodeError → Prop
  | unreadable {endpoint : Endpoint} {body : Json} (h : ¬endpoint.CanRead body) :
      Refuses n (.handle endpoint body) .badBody
  | otherApp {body : Json} {r : JoinRequest} (h : JoinRequest.ofJson? body = some r)
      (happ : r.app ≠ n.settings.app) :
      Refuses n (.handle .join body) (.invalidJoinApp n.settings.app r.app)
  | itself {body : Json} {r : JoinRequest} (h : JoinRequest.ofJson? body = some r)
      (happ : r.app = n.settings.app) (hself : r.source = n.address) :
      Refuses n (.handle .join body) (.invalidJoinSource r.source)
  | patch {patch : Json} {e : NodeError} (h : n.settings.merge patch = .error e) :
      Refuses n (.configure patch) e
  | positions {patch : Json} {merged : Settings} (h : n.settings.merge patch = .ok merged)
      (hpoints : merged.replicaPoints ≠ n.settings.replicaPoints) :
      Refuses n (.configure patch) (.invalidConfig "replicaPoints cannot change on a running node")
  | noRow {d : Demand} (hd : d = .leave ∨ d = .rejoin) (h : n.membership.localRow? = none) :
      Refuses n d .missingLocalMember
  | notReady {d : Demand} {row : Member} (hd : d = .leave ∨ d = .rejoin)
      (h : n.membership.localRow? = some row) (hclosed : n.membership.isReady = false) :
      Refuses n d .notReady
  | leftBefore {row : Member} (h : n.membership.localRow? = some row)
      (hready : n.membership.isReady = true) (hleft : row.status = .leave) :
      Refuses n .leave .redundantLeave
  | notLeft {row : Member} (h : n.membership.localRow? = some row)
      (hready : n.membership.isReady = true) (hthere : row.status ≠ .leave) :
      Refuses n .rejoin .redundantJoin
  | destroyed (h : n.destroyed = true) : Refuses n .bootstrap .joinAborted
  | begun (h : n.destroyed = false) (hbegun : n.bootstrapped = true) :
      Refuses n .bootstrap .alreadyBootstrapped

namespace Node

variable {now : Moment} {n n' : Node} {e : NodeError}

/-- What is refused with a reason leaves the node as it was. -/
theorem refuses_of_done {d : Demand} {e' : NodeError} {α : Type} (hrefuses : Refuses n d e)
    (h : Attempt.done n (.error e : Except NodeError α) = .done n' (.error e')) :
    n' = n ∧ Refuses n d e' := by
  obtain ⟨rfl, herror⟩ := Attempt.done.inj h
  obtain rfl := Except.error.inj herror
  exact ⟨rfl, hrefuses⟩

theorem ownRow_of_none (h : n.membership.localRow? = none) :
    n.ownRow = .error .missingLocalMember := by
  rw [ownRow, h]

theorem ownRow_of_closed {row : Member} (h : n.membership.localRow? = some row)
    (hclosed : n.membership.isReady = false) : n.ownRow = .error .notReady := by
  rw [ownRow, h, hclosed]
  rfl

/-- A node that has no row of its own to lend out refuses to leave and to come back. -/
theorem refuses_of_ownRow {d : Demand} (hd : d = .leave ∨ d = .rejoin) (h : n.ownRow = .error e) :
    Refuses n d e := by
  cases hrow : n.membership.localRow? with
  | none =>
      obtain rfl := Except.error.inj ((ownRow_of_none hrow).symm.trans h)
      exact .noRow hd hrow
  | some row =>
      cases hready : n.membership.isReady with
      | true => cases (ownRow_eq_of_ready hready hrow).symm.trans h
      | false =>
          obtain rfl := Except.error.inj ((ownRow_of_closed hrow hready).symm.trans h)
          exact .notReady hd hrow hready

/-- **A request to join** is refused before the sender is taken in. -/
theorem answerJoin_eq_error {r : JoinRequest} {body : Json} (hbody : JoinRequest.ofJson? body = some r)
    (h : n.answerJoin now r = .done n' (.error e)) :
    n' = n ∧ Refuses n (.handle .join body) e := by
  rw [answerJoin] at h
  split at h
  · next happ => exact refuses_of_done (.otherApp hbody happ) h
  · next happ =>
    split at h
    · next hself => exact refuses_of_done (.itself hbody (not_not.mp happ) hself) h
    · obtain ⟨n₁, effects, -, hlast⟩ := Attempt.andThen_eq_done h
      cases (Attempt.done.inj hlast).2

/-- **A patch** is refused before anything takes it over. -/
theorem refuses_of_configure {patch : Json} (h : n.configure patch = .error e) :
    Refuses n (.configure patch) e := by
  rw [configure] at h
  cases hmerge : n.settings.merge patch with
  | error e' =>
      rw [hmerge] at h
      obtain rfl := Except.error.inj h
      exact .patch hmerge
  | ok merged =>
      rw [hmerge] at h
      dsimp only at h
      split at h
      · next hpoints =>
        obtain rfl := Except.error.inj h
        exact .positions hmerge hpoints
      · cases h

theorem leave_eq_error (h : n.leave now = .done n' (.error e)) : n' = n ∧ Refuses n .leave e := by
  rw [leave] at h
  cases hown : n.ownRow with
  | error e' =>
      rw [hown] at h
      exact refuses_of_done (refuses_of_ownRow (Or.inl rfl) hown) h
  | ok row =>
      rw [hown] at h
      dsimp only at h
      split at h
      · next hleft =>
        exact refuses_of_done (.leftBefore (ownRow_eq_ok hown) (isReady_of_ownRow hown) hleft) h
      · obtain ⟨n₁, effects, -, hlast⟩ := Attempt.andThen_eq_done h
        cases (Attempt.done.inj hlast).2

theorem rejoin_eq_error (h : n.rejoin now = .done n' (.error e)) : n' = n ∧ Refuses n .rejoin e := by
  rw [rejoin] at h
  cases hown : n.ownRow with
  | error e' =>
      rw [hown] at h
      exact refuses_of_done (refuses_of_ownRow (Or.inr rfl) hown) h
  | ok row =>
      rw [hown] at h
      dsimp only at h
      split at h
      · next hthere =>
        exact refuses_of_done (.notLeft (ownRow_eq_ok hown) (isReady_of_ownRow hown) hthere) h
      · split at h
        · cases h
        · obtain ⟨n₁, effects, -, hlast⟩ := Attempt.andThen_eq_done h
          cases (Attempt.done.inj hlast).2

theorem beginBootstrap_eq_error (h : n.beginBootstrap now = .done n' (.error e)) :
    n' = n ∧ Refuses n .bootstrap e := by
  rw [beginBootstrap] at h
  split at h
  · next hdestroyed => exact refuses_of_done (.destroyed hdestroyed) h
  · next halive =>
    split at h
    · next hbegun => exact refuses_of_done (.begun (Bool.eq_false_iff.mpr halive) hbegun) h
    · dsimp only at h
      split at h
      · cases h
      · obtain ⟨effects, -, herror⟩ := Attempt.map_eq_done h
        cases herror

end Node

/-! ## Who is refused something has changed nothing -/

namespace Demand

variable {now : Moment} {n n' : Node} {d : Demand} {e : NodeError}

/-- Of a request that its endpoint cannot read nothing more is looked at. -/
theorem meet_of_unreadable {endpoint : Endpoint} {body : Json} (h : ¬endpoint.CanRead body)
    (now : Moment) (n : Node) :
    (handle endpoint body).meet now n = .done n (.error .badBody) := by
  cases endpoint
  all_goals rw [meet, Option.not_isSome_iff_eq_none.mp h]

/-- A demand that is refused leaves the node as it was, and there is a reason. -/
theorem refuses_of_meet (h : d.meet now n = .done n' (.error e)) : n' = n ∧ Refuses n d e := by
  cases d with
  | handle endpoint body =>
      by_cases hread : endpoint.CanRead body
      · -- a readable ping or ping-req is never refused
        cases endpoint with
        | join =>
            obtain ⟨r, hbody⟩ := Option.isSome_iff_exists.mp hread
            rw [meet, hbody] at h
            obtain ⟨answer, hanswer, hout⟩ := Attempt.map_eq_done h
            cases answer with
            | error e' =>
                obtain rfl := Except.error.inj hout
                exact Node.answerJoin_eq_error hbody hanswer
            | ok response => cases hout
        | ping =>
            obtain ⟨r, hbody⟩ := Option.isSome_iff_exists.mp hread
            rw [meet, hbody] at h
            obtain ⟨_, -, hout⟩ := Attempt.map_eq_done h
            cases hout
        | pingReq =>
            obtain ⟨r, hbody⟩ := Option.isSome_iff_exists.mp hread
            rw [meet, hbody] at h
            obtain ⟨_, -, hout⟩ := Attempt.map_eq_done h
            cases hout
      · rw [meet_of_unreadable hread] at h
        exact Node.refuses_of_done (.unreadable hread) h
  | configure patch =>
      rw [meet] at h
      cases hconfigure : n.configure patch with
      | ok n₁ =>
          rw [hconfigure] at h
          cases (Attempt.done.inj h).2
      | error e' =>
          rw [hconfigure] at h
          exact Node.refuses_of_done (Node.refuses_of_configure hconfigure) h
  | leave => exact Node.leave_eq_error h
  | rejoin => exact Node.rejoin_eq_error h
  | bootstrap => exact Node.beginBootstrap_eq_error h

/-- Every reason is one to refuse. -/
theorem meet_of_refuses (h : Refuses n d e) (now : Moment) : d.meet now n = .done n (.error e) := by
  cases h with
  | unreadable hread => exact meet_of_unreadable hread now n
  | otherApp hbody happ =>
      rw [meet, hbody]
      dsimp only
      rw [Node.answerJoin, if_pos happ]
      rfl
  | itself hbody happ hself =>
      rw [meet, hbody]
      dsimp only
      rw [Node.answerJoin, if_neg (not_not_intro happ), if_pos hself]
      rfl
  | patch hmerge =>
      rw [meet, Node.configure, hmerge]
  | positions hmerge hpoints =>
      rw [meet, Node.configure, hmerge]
      dsimp only
      rw [if_pos hpoints]
  | noRow hd hrow =>
      have hown := Node.ownRow_of_none hrow
      rcases hd with rfl | rfl
      · rw [meet, Node.leave, hown]
      · rw [meet, Node.rejoin, hown]
  | notReady hd hrow hclosed =>
      have hown := Node.ownRow_of_closed hrow hclosed
      rcases hd with rfl | rfl
      · rw [meet, Node.leave, hown]
      · rw [meet, Node.rejoin, hown]
  | leftBefore hrow hready hleft =>
      rw [meet, Node.leave, Node.ownRow_eq_of_ready hready hrow]
      exact if_pos hleft
  | notLeft hrow hready hthere =>
      rw [meet, Node.rejoin, Node.ownRow_eq_of_ready hready hrow]
      exact if_pos hthere
  | destroyed hdestroyed => rw [meet, Node.beginBootstrap, if_pos hdestroyed]
  | begun halive hbegun =>
      rw [meet, Node.beginBootstrap, if_neg (Bool.eq_false_iff.mp halive), if_pos hbegun]

/-- **A demand is refused for these reasons only, and the whole node is left as it was.** -/
theorem meet_eq_error_iff :
    d.meet now n = .done n' (.error e) ↔ n' = n ∧ Refuses n d e := by
  constructor
  · exact refuses_of_meet
  · rintro ⟨rfl, hrefuses⟩
    exact meet_of_refuses hrefuses now

end Demand

/-! ## On a network -/

namespace World

open Network

/-- The number of the call whose refusal is brought back, and the error. -/
def refusal? : Errand → Option (Nat × NodeError)
  | .finish call (.refused e) => some (call, e)
  | _ => none

/-- The refusals that are on their way back. -/
def refusals (w : World) : List (Nat × NodeError) := w.errands.filterMap refusal?

variable {w : World} {call : Call} {n : Node}

theorem putNode_self {index : Nat} (h : w.nodeAt? index = some n) : w.putNode index n = w := by
  have hpeer : w.peers[index]? = some (.node n) := by
    rw [nodeAt?] at h
    split at h
    · next hat => rw [hat, Option.some.inj h]
    · cases h
  obtain ⟨hlt, hget⟩ := List.getElem?_eq_some_iff.mp hpeer
  rw [putNode, ← hget, List.set_getElem_self]

theorem answer_of_unreadable (h : ¬call.endpoint.CanRead call.body) (w : World) (n : Node) :
    w.answer call n = w.next (.finish call.id (.refused .badBody)) := by
  rw [answer]
  cases hendpoint : call.endpoint
  all_goals
    rw [hendpoint] at h
    dsimp only
    rw [Option.not_isSome_iff_eq_none.mp h]

/-- **A node that refuses a request does nothing else**: the refusal sets out, and the network is as it
    was. -/
theorem answer_of_refused (hnode : w.nodeAt? call.peer = some n) {e : NodeError}
    (hrefuses : Refuses n (.handle call.endpoint call.body) e) :
    w.answer call n = w.next (.finish call.id (.refused e)) := by
  have hmeet := Demand.meet_of_refuses hrefuses w.moment
  by_cases hread : call.endpoint.CanRead call.body
  · rw [answer]
    cases hendpoint : call.endpoint with
    | join =>
        rw [hendpoint] at hread hmeet
        obtain ⟨r, hbody⟩ := Option.isSome_iff_exists.mp hread
        rw [Demand.meet, hbody] at hmeet
        obtain ⟨answer, hanswer, hout⟩ := Attempt.map_eq_done hmeet
        cases answer with
        | ok response => cases hout
        | error e' =>
            obtain rfl := Except.error.inj hout
            dsimp only
            rw [hbody]
            dsimp only
            rw [hanswer, replyWith, putNode_self hnode]
    -- only a join can refuse what it could read
    | ping =>
        rw [hendpoint] at hread hmeet
        obtain ⟨r, hbody⟩ := Option.isSome_iff_exists.mp hread
        rw [Demand.meet, hbody] at hmeet
        obtain ⟨_, -, hout⟩ := Attempt.map_eq_done hmeet
        cases hout
    | pingReq =>
        rw [hendpoint] at hread hmeet
        obtain ⟨r, hbody⟩ := Option.isSome_iff_exists.mp hread
        rw [Demand.meet, hbody] at hmeet
        obtain ⟨_, -, hout⟩ := Attempt.map_eq_done hmeet
        cases hout
  · rw [Demand.meet_of_unreadable hread] at hmeet
    obtain rfl := Except.error.inj (Attempt.done.inj hmeet).2
    exact answer_of_unreadable hread w n

/-- Sending is no refusal. -/
theorem refusals_send (w : World) (run : Nat) (asker : Asker) (sender : Option Nat)
    (origin target : String) (endpoint : Endpoint) (body : Json) (timeout : Option Duration)
    (atOnce : Bool) :
    (w.send run asker sender origin target endpoint body timeout atOnce).refusals = w.refusals := by
  -- a call that goes out is no refusal, whether it is queued now or later
  have hqueue : ∀ (w' : World) (errand : Errand), w'.errands = w.errands →
      refusal? errand = none →
      (if atOnce then w'.next errand else w'.later errand).refusals = w.refusals := by
    intro w' errand herrands hnone
    cases atOnce with
    | true => rw [if_pos rfl, refusals, next, List.filterMap_cons_none hnone, herrands, refusals]
    | false =>
        rw [if_neg Bool.false_ne_true, refusals, later, List.filterMap_append,
          List.filterMap_cons_none hnone, List.filterMap_nil, List.append_nil, herrands, refusals]
  rw [send]
  dsimp only
  split
  · exact hqueue _ _ rfl rfl
  · split
    · exact hqueue _ _ rfl rfl
    · split
      · rfl
      · exact hqueue _ _ rfl rfl

/-- **A request that is not refused when it arrives** is answered or under way. -/
theorem refusals_answer (h : ∀ e, ¬Refuses n (.handle call.endpoint call.body) e) (w : World) :
    (w.answer call n).refusals = w.refusals := by
  have hread : call.endpoint.CanRead call.body := by
    by_contra hunread
    exact h .badBody (.unreadable hunread)
  rw [answer]
  cases hendpoint : call.endpoint with
  | join =>
      rw [hendpoint] at hread h
      obtain ⟨r, hbody⟩ := Option.isSome_iff_exists.mp hread
      dsimp only
      rw [hbody]
      dsimp only
      cases hanswer : n.answerJoin w.moment r with
      | exhausted n' => rfl
      | done n' outcome =>
          cases outcome with
          | ok response => rfl
          | error e => exact absurd (Node.answerJoin_eq_error hbody hanswer).2 (h e)
  | ping =>
      rw [hendpoint] at hread
      obtain ⟨r, hbody⟩ := Option.isSome_iff_exists.mp hread
      dsimp only
      rw [hbody]
      dsimp only
      cases n.answerPing w.moment r <;> rfl
  | pingReq =>
      rw [hendpoint] at hread
      obtain ⟨r, hbody⟩ := Option.isSome_iff_exists.mp hread
      dsimp only
      rw [hbody]
      dsimp only
      cases n.receivePingReq w.moment r with
      | exhausted n' => rfl
      | done n' effects => exact refusals_send _ _ _ _ _ _ _ _ _ _

/-- **A ping-req that was received is answered**, whatever became of the ping. -/
theorem refusals_takeRelayed (w : World) (index : Nat) (request : PingReqRequest) (up : Nat)
    (reply : Reply) : (w.takeRelayed index request up reply).refusals = w.refusals := by
  rw [takeRelayed]
  split
  · rfl
  · dsimp only
    split
    · rfl
    · split
      · rfl
      · split <;> rfl
    · rfl

end World

end GossipRing
