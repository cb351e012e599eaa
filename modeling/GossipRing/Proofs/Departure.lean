import GossipRing.Proofs.SuspectWatch

/-!
# A departure that does not last

Toward: what brings a node back that has left. It still answers requests, so it goes on hearing
claims about itself; and it denies that it is down whether it is there or not.

* **`Revives`** — a claim that calls back a node that left at some incarnation: that the node is down,
  or that it is alive at a greater incarnation. `Move.Revives` is that of a stretch that hears one.
* **`Membership.Left`** — the table of a node that has left. Claims that do not revive it leave it so
  (`Left.applied`), and one that does raises the node's incarnation (`Left.revived`).
* **`Node.Away`** — the node as it is while its departure lasts. `Away.perform`: every stretch but a
  return keeps it so, unless the stretch recalls it; `Away.rejoin`: then it can come back.
* **`Process.Muted`** — suspicion is disabled, revived or not. Every act but a return keeps it so.
-/

namespace GossipRing

/-- The row that is claimed calls back a node that left at this incarnation: the node is said to be
    down, which it denies, or to be alive since. -/
def Member.Revives (here : String) (inc : UInt64) (row : Member) : Prop :=
  row.address = here ∧ (row.status.IsDown ∨ row.status = .alive ∧ inc < row.incarnation)

instance (here : String) (inc : UInt64) (row : Member) : Decidable (row.Revives here inc) :=
  inferInstanceAs (Decidable (_ ∧ _))

namespace Membership

variable {now : Clock} {inc : UInt64} {m m' : Membership} {c : Change} {claims effects : List Change}

/-- The node has joined, and left at this incarnation. -/
structure Left (m : Membership) (inc : UInt64) : Prop where
  ready : m.isReady = true
  row : m.localRow? = some ⟨m.here, .leave, inc⟩

/-- What is left of an incarnation that the node has reached is above all that it was above. -/
theorem Applied.lt_localIncarnation {newer : UInt64} (h : Applied now m claims m' effects)
    (howns : m.Owns newer) (hlt : inc < newer) : inc < m'.localIncarnation := by
  obtain ⟨row, hrow, hle⟩ := h.owns howns
  rw [localIncarnation_of_localRow? hrow]
  exact UInt64.lt_of_lt_of_le hlt hle

namespace Left

theorem row?_here (h : m.Left inc) (hlocal : c.address = m.here) :
    m.row? c.address = some ⟨m.here, .leave, inc⟩ := by
  rw [hlocal]
  exact h.row

/-- Of the claims about the node those are accepted that say it is alive, at a greater incarnation. -/
theorem accepts_iff (h : m.Left inc) (hlocal : c.address = m.here) :
    m.Accepts c ↔ c.status = .alive ∧ inc < c.incarnation := by
  rw [accepts_iff_of_some (h.row?_here hlocal)]
  constructor
  · rintro ⟨hover, hspares⟩
    rcases hspares hlocal with halive | ⟨hleft, -⟩
    · exact ⟨halive, (Precedence.overrides_iff_of_alive halive).mp hover⟩
    · -- a node leaves once
      exact absurd hleft.symm ((Precedence.overrides_iff_of_departed (Or.inl hleft)).mp hover).1
  · rintro ⟨halive, hnewer⟩
    exact ⟨(Precedence.overrides_iff_of_alive halive).mpr hnewer, fun _ => Or.inl halive⟩

/-- A claim about the node is accepted or refuted exactly if it revives the node. -/
theorem accepts_or_refutes_iff (h : m.Left inc) (hlocal : c.address = m.here) :
    m.Accepts c ∨ m.Refutes c ↔ c.toMember.Revives m.here inc := by
  rw [h.accepts_iff hlocal, refutes_iff_of_some (h.row?_here hlocal), or_comm, and_iff_right hlocal]
  exact (and_iff_right hlocal).symm

/-- A claim about somebody else does not touch the node's row. -/
theorem put (h : m.Left inc) (row : Member) (hremote : row.address ≠ m.here) :
    (m.put row).Left inc where
  ready := by
    rw [isReady, gate_put]
    exact h.ready
  row := by
    rw [localRow?_put, if_neg hremote, here_put]
    exact h.row

/-- **Claims that do not revive the node are all taken in**, and none takes effect on it. -/
theorem applied (h : m.Left inc) (now : Clock)
    (hquiet : ∀ c ∈ claims, ¬c.toMember.Revives m.here inc) :
    ∃ m' effects, Applied now m claims m' effects ∧ m'.Left inc ∧
      ∀ e ∈ effects, e.address ≠ m.here := by
  induction claims generalizing now m with
  | nil => exact ⟨m, [], .nil, h, fun e he => absurd he List.not_mem_nil⟩
  | cons c rest ih =>
      have hrest : ∀ d ∈ rest, ¬d.toMember.Revives m.here inc :=
        fun d hd => hquiet d (List.mem_cons_of_mem _ hd)
      have hrefutes : ¬m.Refutes c := fun hr =>
        hquiet c List.mem_cons_self ((h.accepts_or_refutes_iff hr.1).mp (Or.inr hr))
      -- as nothing refutes, a claim is passed over or it is accepted about somebody else
      by_cases hignores : m.Ignores c
      · obtain ⟨m', effects, happlied, hleft, hremote⟩ := ih h now.next hrest
        exact ⟨m', effects, .ignore hignores happlied, hleft, hremote⟩
      · obtain ⟨hnamed, hnot⟩ := not_or.mp hignores
        have haccepts : m.Accepts c := by_contra fun ha => hnot ⟨ha, hrefutes⟩
        have hother : c.address ≠ m.here := fun hlocal =>
          hquiet c List.mem_cons_self ((h.accepts_or_refutes_iff hlocal).mp (Or.inl haccepts))
        obtain ⟨m', effects, happlied, hleft, hremote⟩ :=
          ih (h.put c.toMember hother) now.next (by rwa [here_put])
        rw [here_put] at hremote
        exact ⟨m', c :: effects, .accept hnamed haccepts happlied, hleft,
          List.forall_mem_cons.mpr ⟨hother, hremote⟩⟩

/-- **A batch with a claim that revives the node raises the node's incarnation.** -/
theorem revived (h : m.Left inc) (hnamed : m.here ≠ "") (hc : c ∈ claims)
    (hrevives : c.toMember.Revives m.here inc) (happlied : Applied now m claims m' effects) :
    inc < m'.localIncarnation := by
  induction happlied with
  | nil => exact absurd hc List.not_mem_nil
  | @ignore now m m' d rest effects hignores _ ih =>
      rcases List.mem_cons.mp hc with rfl | hc
      · rcases hignores with hmalformed | ⟨haccepts, hrefutes⟩
        · exact absurd (hrevives.1.symm.trans (String.isEmpty_iff.mp hmalformed)) hnamed
        · rcases (h.accepts_or_refutes_iff hrevives.1).mpr hrevives with ha | hr
          · exact absurd ha haccepts
          · exact absurd hr hrefutes
      · exact ih h hnamed hc hrevives
  | @accept now m m' d rest effects _ haccepts hrest ih =>
      by_cases hlocal : d.address = m.here
      · exact hrest.lt_localIncarnation (owns_put_self hlocal) ((h.accepts_iff hlocal).mp haccepts).2
      · have hc : c ∈ rest := by
          refine (List.mem_cons.mp hc).resolve_left ?_
          rintro rfl
          exact hlocal hrevives.1
        exact ih (h.put d.toMember hlocal) (by rwa [here_put]) hc (by rwa [here_put])
  | @refute now m m' d rest effects newer _ _ hfresh hrest _ =>
      have hlt := lt_of_freshIncarnation? hfresh
      rw [localIncarnation_of_localRow? h.row] at hlt
      exact hrest.lt_localIncarnation (owns_put_self rfl) hlt

/-- An update with a claim that revives raises the local incarnation above that of the departure. -/
theorem update_revived (h : m.Left inc) (hnamed : m.here ≠ "") (hc : c ∈ claims)
    (hrevives : c.toMember.Revives m.here inc) {localAlive : Bool}
    (hupdate : m.update now claims localAlive = .done m' effects) : inc < m'.localIncarnation := by
  obtain ⟨m₁, happlied, halike⟩ := update_eq_done hupdate
  rw [h.ready, Bool.true_or, if_pos rfl] at happlied
  rw [localIncarnation, halike.localRow?]
  exact h.revived hnamed hc hrevives happlied

theorem conclude (h : m.Left inc) (effects : List Change) : (m.conclude effects).Left inc where
  ready := by
    rw [isReady, gate_conclude]
    exact h.ready
  row := by
    rw [(alike_conclude m effects).localRow?, (alike_conclude m effects).here]
    exact h.row

end Left

end Membership

/-! ## Stretches -/

/-- What a verdict makes the node claim of its target. -/
def Verdict.status? : Verdict → Option Status
  | reachable => some .alive
  | unreachable => some .suspect
  | noHelpers => some .suspect
  | inconclusive => none

/-- The claims that a stretch hears from others, or makes of its target. -/
def Move.heard : Move → List Member
  | answerPing request => request.changes.map Change.toMember
  | receivePingReq request => request.changes.map Change.toMember
  | absorb changes => changes.map Change.toMember
  | judge target verdict =>
    verdict.status?.toList.map fun status => ⟨target.address, status, target.incarnation⟩
  | _ => []

/-- The stretch hears a claim that calls back a node that left at this incarnation. -/
def Move.Revives (here : String) (inc : UInt64) (move : Move) : Prop :=
  ∃ row ∈ move.heard, row.Revives here inc

instance (here : String) (inc : UInt64) (move : Move) : Decidable (move.Revives here inc) :=
  inferInstanceAs (Decidable (∃ row ∈ move.heard, row.Revives here inc))

/-- The act is a stretch that hears such a claim. -/
def Act.Revives (here : String) (inc : UInt64) : Act → Prop
  | .move m => m.Revives here inc
  | _ => False

instance (here : String) (inc : UInt64) : (act : Act) → Decidable (act.Revives here inc)
  | .move m => inferInstanceAs (Decidable (m.Revives here inc))
  | .enter _ => isFalse id
  | .announce _ => isFalse id
  | .fail _ => isFalse id
  | .complete _ _ => isFalse id
  | .runOut => isFalse id
  | .expire _ => isFalse id

namespace Suspicion

variable {s : Suspicion}

theorem runOut_of_nil (h : s.timers = []) (now : ℕ) : s.runOut now = (s, []) := by
  obtain ⟨here, timeout, timers, generation, disabled⟩ := s
  obtain rfl : timers = [] := h
  rw [runOut, List.filter_nil, List.mergeSort_nil, List.map_nil, List.map_nil]

theorem claim_of_nil (h : s.timers = []) (e : Expiry) : s.claim e = (s, false) := by
  rw [claim, h]
  rfl

end Suspicion

namespace Node

variable {now : Moment} {inc : UInt64} {n n' : Node} {claims : List Change} {move : Move}

/-- The node has left at this incarnation, and owns no positions. -/
structure Away (n : Node) (inc : UInt64) : Prop where
  here : n.membership.here = n.address
  left : n.membership.Left inc
  off : n.address ∉ n.ring.servers

/-- A verdict asserts its own status of the target, if it has one. -/
theorem judge_eq (n : Node) (now : Moment) (target : Member) (verdict : Verdict) :
    n.judge now target verdict =
      match verdict.status? with
      | some status => n.assert now target.address status target.incarnation
      | none => .done n [] := by
  cases verdict <;> rfl

/-- A node that is alive is refused a return. -/
theorem rejoin_of_alive {row : Member} (hready : n.membership.isReady = true)
    (hrow : n.membership.localRow? = some row) (halive : row.status = .alive) (now : Moment) :
    n.rejoin now = .done n (.error .redundantJoin) := by
  rw [Node.rejoin, ownRow_eq_of_ready hready hrow]
  refine if_pos ?_
  rw [halive]
  decide

namespace Away

/-- Whether a node is away depends on its name, table and ring. -/
theorem congr (h : n.Away inc) (haddress : n'.address = n.address)
    (htable : n'.membership = n.membership) (hring : n'.ring = n.ring) : n'.Away inc := by
  refine ⟨?_, ?_, ?_⟩
  · rw [htable, haddress]
    exact h.here
  · rw [htable]
    exact h.left
  · rw [haddress, hring]
    exact h.off

/-- **Claims that do not revive the node leave it away.** -/
theorem settle (h : n.Away inc) (now : Moment) (localAlive : Bool)
    (hquiet : ∀ c ∈ claims, ¬c.toMember.Revives n.address inc) :
    ∃ n' effects, n.settle now (n.membership.update now.wall claims localAlive) =
        .done n' effects ∧ n'.Away inc ∧ n'.address = n.address := by
  rw [← h.here] at hquiet
  obtain ⟨m, effects, happlied, hleft, hremote⟩ := h.left.applied now.wall hquiet
  rw [Membership.update_of_applied h.left.ready localAlive happlied]
  have haddress : (spread { n with membership := m.conclude effects } now effects).address =
      n.address := address_spread _ _ _
  have hhere : (m.conclude effects).here = n.address := by
    rw [(Membership.alike_conclude m effects).here, happlied.here_eq, h.here]
  refine ⟨_, effects, rfl, ⟨?_, ?_, ?_⟩, haddress⟩
  · rw [membership_spread, haddress, hhere]
  · rw [membership_spread]
    exact hleft.conclude effects
  · have hother : n.address ∉ effects.map Change.address := by
      intro hmem
      obtain ⟨e, he, hlocal⟩ := List.mem_map.mp hmem
      exact hremote e he (hlocal.trans h.here.symm)
    have hrows : ∀ a ∈ effects.map Change.address, ((m.conclude effects).row? a).isSome := by
      intro a ha
      rw [(Membership.alike_conclude m effects).row?, happlied.eq_putAll]
      exact Membership.isSome_row?_putAll ha
    rw [haddress, mem_servers_spread hrows, if_neg hother]
    exact h.off

theorem assert (h : n.Away inc) (now : Moment) (row : Member) (hquiet : ¬row.Revives n.address inc) :
    ∃ n' effects, n.assert now row.address row.status row.incarnation = .done n' effects ∧
      n'.Away inc ∧ n'.address = n.address :=
  h.settle now _ (List.forall_mem_singleton.mpr hquiet)

/-- The node's own row is not faulty, so nobody reaps it. -/
theorem reap (h : n.Away inc) (hdistinct : n.membership.Distinct) (now : Moment) :
    ∃ n' reaped, n.reap now = .done n' reaped ∧ n'.Away inc ∧ n'.address = n.address := by
  have hquiet : ∀ c ∈ (n.membership.rows.filter fun row => row.status = .faulty).map fun row =>
      { Change.ofMember row n.address n.membership.localIncarnation now.wall.reading with
        status := .tombstone }, ¬c.toMember.Revives n.address inc := by
    rintro c hc ⟨hlocal, -⟩
    obtain ⟨row, hmem, rfl⟩ := List.mem_map.mp hc
    obtain ⟨hrow, hfaulty⟩ := List.mem_filter.mp hmem
    have hown : n.membership.localRow? = some row :=
      (Membership.row?_eq_some_iff hdistinct).mpr ⟨hrow, hlocal.trans h.here.symm⟩
    obtain rfl := Option.some.inj (h.left.row.symm.trans hown)
    exact nomatch (of_decide_eq_true hfaulty : Status.leave = .faulty)
  obtain ⟨n', effects, hupdate, haway⟩ := h.settle now false hquiet
  exact ⟨n', _, congrArg (Attempt.map _) hupdate, haway⟩

/-- A node that is away finds its own row, which says that it has left. -/
theorem ownRow (h : n.Away inc) : n.ownRow = .ok ⟨n.address, .leave, inc⟩ := by
  rw [ownRow_eq_of_ready h.left.ready h.left.row, h.here]

/-- A node that is away cannot leave again. -/
theorem leave (h : n.Away inc) (now : Moment) :
    n.leave now = .done n (.error .redundantLeave) := by
  rw [Node.leave, h.ownRow]
  exact if_pos rfl

/-- New settings matter to neither the table nor the ring. -/
theorem configure (h : n.Away inc) {patch : Json} (hconfigure : n.configure patch = .ok n') :
    n'.Away inc ∧ n'.address = n.address := by
  obtain ⟨merged, -, rfl⟩ := configure_eq_ok hconfigure
  exact ⟨h.congr rfl rfl rfl, rfl⟩

/-- **Every stretch but a return leaves the node away**, unless the stretch revives it. -/
theorem perform (h : n.Away inc) (hdistinct : n.membership.Distinct) (now : Moment)
    (hmove : move ≠ .rejoin) (hquiet : ¬move.Revives n.address inc) :
    ∃ n', move.perform now n = .done n' () ∧ n'.Away inc ∧ n'.address = n.address := by
  have hupdate : ∀ {changes : List Change}, move.heard = changes.map Change.toMember →
      ∃ n' effects, n.update now changes = .done n' effects ∧ n'.Away inc ∧
        n'.address = n.address := by
    intro changes hheard
    refine h.settle now false fun c hc hrevives => hquiet ⟨c.toMember, ?_, hrevives⟩
    rw [hheard]
    exact List.mem_map_of_mem hc
  have hdone : ∀ {α : Type} {first : Attempt Node α},
      (∃ n' out, first = .done n' out ∧ n'.Away inc ∧ n'.address = n.address) →
      ∃ n', (first.map fun _ => ()) = .done n' () ∧ n'.Away inc ∧ n'.address = n.address := by
    rintro α first ⟨n', out, hfirst, haway⟩
    exact ⟨n', by rw [hfirst, Attempt.map_done], haway⟩
  cases move with
  | takeIn source newer =>
      rw [Move.perform]
      split
      · exact ⟨n, rfl, h, rfl⟩
      · next hother =>
        exact hdone (h.assert now ⟨source, .alive, newer⟩ fun hrevives => hother hrevives.1)
  | answerPing request =>
      obtain ⟨n₁, effects, htaken, haway, haddress⟩ := hupdate rfl
      refine hdone ?_
      rw [answerPing, htaken, Attempt.andThen_done]
      exact ⟨_, _, rfl, haway.congr rfl rfl rfl, haddress⟩
  | receivePingReq request => exact hdone (hupdate rfl)
  | answerPingReq request reached => exact ⟨_, rfl, h.congr rfl rfl rfl, rfl⟩
  | pickTarget chance => exact ⟨_, rfl, h.congr rfl rfl rfl, rfl⟩
  | composePing => exact ⟨_, rfl, h.congr rfl rfl rfl, rfl⟩
  | composePingReq target chance => exact ⟨_, rfl, h.congr rfl rfl rfl, rfl⟩
  | absorb changes =>
      refine hdone ?_
      rw [absorb]
      split
      · exact ⟨n, [], rfl, h, rfl⟩
      · exact hupdate rfl
  | judge target verdict =>
      refine hdone ?_
      rw [judge_eq]
      cases hstatus : verdict.status? with
      | none => exact ⟨n, [], rfl, h, rfl⟩
      | some status =>
          refine h.assert now ⟨target.address, status, target.incarnation⟩ fun hrevives => ?_
          refine hquiet ⟨_, ?_, hrevives⟩
          rw [Move.heard, hstatus]
          exact List.mem_singleton_self _
  | leave => exact hdone ⟨n, _, h.leave now, h, rfl⟩
  | rejoin => exact absurd rfl hmove
  | reap => exact hdone (h.reap hdistinct now)
  | configure patch =>
      rw [Move.perform]
      cases hconfigure : n.configure patch with
      | error e => exact ⟨n, rfl, h, rfl⟩
      | ok n' => exact ⟨n', rfl, h.configure hconfigure⟩
  | setGossip status => exact ⟨_, rfl, h.congr rfl rfl rfl, rfl⟩
  | condemn => exact ⟨_, rfl, h.congr rfl rfl rfl, rfl⟩
  | stopTimers =>
      rw [Move.perform]
      split
      · exact ⟨_, rfl, h.congr rfl rfl rfl, rfl⟩
      · exact ⟨_, rfl, h, rfl⟩

/-- **A stretch that revives the node raises its incarnation**, if it is completed. -/
theorem revived (h : n.Away inc) (hnamed : n.address ≠ "") (hrevives : move.Revives n.address inc)
    (hdone : move.perform now n = .done n' ()) : inc < n'.membership.localIncarnation := by
  obtain ⟨row, hheard, hrow⟩ := hrevives
  rw [← h.here] at hnamed hrow
  have hsettle : ∀ {claims effects : List Change} {localAlive : Bool} {n₁ : Node} {c : Change},
      c ∈ claims → c.toMember.Revives n.membership.here inc →
      n.settle now (n.membership.update now.wall claims localAlive) = .done n₁ effects →
      inc < n₁.membership.localIncarnation := by
    intro claims effects localAlive n₁ c hc hc' hsettled
    obtain ⟨m, hupdate, rfl⟩ := settle_eq_done hsettled
    rw [membership_spread]
    exact h.left.update_revived hnamed hc hc' hupdate
  have hupdate : ∀ {changes effects : List Change} {n₁ : Node},
      row ∈ changes.map Change.toMember → n.update now changes = .done n₁ effects →
      inc < n₁.membership.localIncarnation := by
    intro changes effects n₁ hmem hupdated
    obtain ⟨c, hc, rfl⟩ := List.mem_map.mp hmem
    exact hsettle hc hrow hupdated
  -- moves other than these four hear of nobody
  cases move with
  | answerPing request =>
      obtain ⟨response, hanswer, -⟩ := Attempt.map_eq_done hdone
      obtain ⟨n₁, effects, htaken, hlast⟩ := Attempt.andThen_eq_done hanswer
      obtain ⟨rfl, -⟩ := Attempt.done.inj hlast
      have hraised : inc < n₁.membership.localIncarnation := hupdate hheard htaken
      exact hraised
  | receivePingReq request =>
      obtain ⟨effects, htaken, -⟩ := Attempt.map_eq_done hdone
      exact hupdate hheard htaken
  | absorb changes =>
      obtain ⟨effects, habsorb, -⟩ := Attempt.map_eq_done hdone
      rw [absorb] at habsorb
      split at habsorb
      · next hnone =>
        rw [Move.heard, List.isEmpty_iff.mp hnone] at hheard
        exact absurd hheard List.not_mem_nil
      · exact hupdate hheard habsorb
  | judge target verdict =>
      obtain ⟨effects, hjudge, -⟩ := Attempt.map_eq_done hdone
      rw [judge_eq] at hjudge
      rw [Move.heard] at hheard
      cases hstatus : verdict.status? with
      | none =>
          rw [hstatus] at hheard
          exact absurd hheard List.not_mem_nil
      | some status =>
          rw [hstatus] at hheard hjudge
          obtain rfl := List.mem_singleton.mp hheard
          exact hsettle (c := n.membership.ownClaim now.wall target.address status target.incarnation)
            (List.mem_singleton_self _) hrow hjudge
  | _ => exact absurd hheard List.not_mem_nil

/-- **A node that is away can come back**: it is alive at a greater incarnation, owns positions again
    and may suspect others. -/
theorem rejoin (h : n.Away inc) (hnamed : n.address ≠ "")
    (hroom : inc ≠ Membership.lastIncarnation) (now : Moment) :
    ∃ n' newer, n.rejoin now = .done n' (.ok ()) ∧ inc < newer ∧
      n'.membership.localRow? = some ⟨n.address, .alive, newer⟩ ∧ n.address ∈ n'.ring.servers ∧
      n'.suspicion.disabled = false := by
  have hinc : n.membership.localIncarnation = inc :=
    Membership.localIncarnation_of_localRow? h.left.row
  obtain ⟨newer, hfresh⟩ : ∃ newer, n.membership.freshIncarnation? now.wall = some newer :=
    ⟨_, if_neg (hinc ▸ hroom)⟩
  have hlt : inc < newer := hinc ▸ Membership.lt_of_freshIncarnation? hfresh
  obtain ⟨n₁, hassert, -, hhere, -, hrows, hring⟩ := assert_of_accepts h.left.ready now
    ⟨n.address, .alive, newer⟩ hnamed ((h.left.accepts_iff h.here.symm).mpr ⟨rfl, hlt⟩)
  have hrejoin : n.rejoin now =
      .done { n₁ with suspicion := n₁.suspicion.reenable }.startGossip.1 (.ok ()) := by
    rw [Node.rejoin, h.ownRow]
    dsimp only at hassert ⊢
    rw [if_neg (not_not_intro rfl), hfresh]
    dsimp only
    rw [hassert, Attempt.andThen_done]
  have hstarted : ({ n₁ with suspicion := n₁.suspicion.reenable }.startGossip.1.membership =
      n₁.membership ∧ { n₁ with suspicion := n₁.suspicion.reenable }.startGossip.1.ring = n₁.ring ∧
      { n₁ with suspicion := n₁.suspicion.reenable }.startGossip.1.suspicion =
        n₁.suspicion.reenable) := by
    rw [startGossip]
    split <;> exact ⟨rfl, rfl, rfl⟩
  obtain ⟨htable, hsame, hsuspicion⟩ := hstarted
  refine ⟨_, newer, hrejoin, hlt, ?_, ?_, ?_⟩
  · rw [htable, Membership.localRow?, hhere, h.here, hrows, if_pos rfl]
  · rw [hsame]
    exact hring.mpr rfl
  · rw [hsuspicion]
    rfl

end Away

/-- **A node that leaves is away**, at the incarnation it had, and suspects nobody any more. -/
theorem away_of_leave (hhere : n.membership.here = n.address) (hnamed : n.membership.Named)
    (h : n.leave now = .done n' (.ok ())) :
    n'.Away n.membership.localIncarnation ∧ n'.address = n.address ∧
      n'.suspicion.disabled = true := by
  rw [Node.leave] at h
  cases hown : n.ownRow with
  | error e =>
      rw [hown] at h
      cases h
  | ok row =>
      rw [hown] at h
      dsimp only at h
      have hrow : n.membership.localRow? = some row := ownRow_eq_ok hown
      obtain ⟨hmem, hlocal⟩ := Membership.mem_of_row?_eq_some hrow
      have hfound : n.membership.row? row.address = some row := by
        rw [hlocal]
        exact hrow
      rw [Membership.localIncarnation_of_localRow? hrow]
      split at h
      · cases h
      · next hpresent =>
        -- leaving at the own incarnation is accepted, since the row does not say so yet
        have haccepts : n.membership.Accepts
            (n.membership.ownClaim now.wall row.address .leave row.incarnation) :=
          (Membership.accepts_iff_of_some hfound).mpr
            ⟨(Precedence.overrides_iff_of_departed (Or.inl rfl)).mpr
              ⟨hpresent, UInt64.le_refl _⟩, fun _ => Or.inr ⟨rfl, rfl⟩⟩
        obtain ⟨n₁, hassert, haddress, hsame, hready, hrows, hring⟩ :=
          assert_of_accepts (isReady_of_ownRow hown) now
            ⟨row.address, .leave, row.incarnation⟩ (hnamed row hmem) haccepts
        rw [hassert, Attempt.andThen_done] at h
        obtain ⟨rfl, -⟩ := Attempt.done.inj h
        dsimp only at hrows hring
        rw [hlocal] at hrows hring
        refine ⟨⟨hsame.trans (hhere.trans haddress.symm), ⟨hready, ?_⟩, ?_⟩, haddress, rfl⟩
        · show n₁.membership.row? n₁.membership.here = some ⟨n₁.membership.here, .leave, _⟩
          rw [hsame, hrows, if_pos rfl]
        · show n₁.address ∉ n₁.ring.servers
          rw [haddress, ← hhere, hring]
          exact Bool.false_ne_true

end Node

namespace Process

variable {now : Moment} {inc : UInt64} {p q : Process} {act : Act} {acts : List (Moment × Act)}

/-- Suspicion is disabled on a node that has joined. -/
structure Muted (p : Process) : Prop where
  reached : p.Reached
  ready : p.node.membership.isReady = true
  disabled : p.node.suspicion.disabled = true

namespace Muted

theorem timers (h : Muted p) : p.node.suspicion.timers = [] :=
  h.reached.watchful.backed.disabled h.disabled

/-- While suspicion is disabled, nothing happens but in stretches. -/
theorem idle (h : Muted p) (now : Moment) (hact : ∀ move, act ≠ .move move) :
    act.perform now p = .done p () := by
  have horderly := h.reached.orderly
  -- with the gate open no call to bootstrap is between its steps
  have hnotUnderWay : ∀ call stage, stage ≠ .outside → stage ≠ .joined → p.calls call ≠ stage := by
    rintro call _ hinside hearly rfl
    exact absurd ((horderly.closed hinside hearly).symm.trans h.ready) Bool.false_ne_true
  cases act with
  | move move => exact absurd rfl (hact move)
  | enter call =>
      obtain ⟨i, hi⟩ := horderly.opened h.ready
      have hbegun := horderly.begun i (by rw [hi]; decide)
      exact if_neg fun hentered => absurd (hbegun.symm.trans hentered.2) (by decide)
  | announce call => exact if_neg (hnotUnderWay call .entered (by decide) (by decide))
  | fail call => exact if_neg (hnotUnderWay call .joining (by decide) (by decide))
  | complete call snapshots => exact if_neg (hnotUnderWay call .joining (by decide) (by decide))
  | runOut =>
      rw [Act.perform, Node.runOut, Suspicion.runOut_of_nil h.timers]
      show Attempt.done { p with sent := p.sent ++ [] } () = _
      rw [List.append_nil]
  | expire e =>
      rw [Act.perform, Node.expire, Suspicion.claim_of_nil h.timers]
      exact ite_self _

/-- **Every act but a return leaves suspicion disabled**, and the table no older. -/
theorem perform (h : Muted p) (hact : act ≠ .move .rejoin) (hdone : act.perform now p = .done q ()) :
    Muted q ∧ p.node.membership.Keeps q.node.membership := by
  have hrun : p.run [(now, act)] = .done q () := by
    rw [run, hdone, Attempt.andThen_done]
    rfl
  obtain ⟨-, hkeeps⟩ := h.reached.orderly.run hrun
  by_cases hmove : ∃ move, act = .move move
  · obtain ⟨move, rfl⟩ := hmove
    obtain ⟨n, hperform, rfl⟩ := Attempt.mapState_eq_done hdone
    obtain ⟨n₁, hheeds, hrests, -⟩ :=
      Node.perform_rests (fun hrejoin => hact (congrArg Act.move hrejoin)) hperform
    refine ⟨⟨h.reached.run hrun, ?_, ?_⟩, hkeeps⟩
    · show n.membership.isReady = true
      rw [hrests.membership, hheeds.advances.2.ready]
      exact h.ready
    · show n.suspicion.disabled = true
      rcases hrests.suspicion with hstopped | ⟨timeout, hsame⟩
      · rw [hstopped]
        rfl
      · rw [hsame]
        exact hheeds.disabled.trans h.disabled
  · obtain ⟨rfl, -⟩ :=
      Attempt.done.inj ((h.idle now fun move hact => hmove ⟨move, hact⟩).symm.trans hdone)
    exact ⟨h, hkeeps⟩

/-- Without a return, a muted process stays muted and its rows do not get older. -/
theorem run (h : Muted p) (hacts : ∀ entry ∈ acts, entry.2 ≠ .move .rejoin)
    (hrun : p.run acts = .done q ()) :
    Muted q ∧ p.node.membership.Keeps q.node.membership := by
  induction acts generalizing p with
  | nil =>
      obtain ⟨rfl, -⟩ := Attempt.done.inj hrun
      exact ⟨h, .refl _⟩
  | cons entry rest ih =>
      obtain ⟨now, act⟩ := entry
      obtain ⟨hact, hrest⟩ := List.forall_mem_cons.mp hacts
      rw [Process.run] at hrun
      obtain ⟨p₁, out, hdone, hlater⟩ := Attempt.andThen_eq_done hrun
      obtain ⟨hmuted, hkeeps⟩ := h.perform hact hdone
      obtain ⟨hmuted', hkeeps'⟩ := ih hmuted hrest hlater
      exact ⟨hmuted', hkeeps.trans hkeeps'⟩

/-! ## While the departure lasts -/

/-- **Every act but a return leaves the node away**, unless the act revives it. -/
theorem away_perform (h : Muted p) (haway : p.node.Away inc) (now : Moment)
    (hact : act ≠ .move .rejoin) (hquiet : ¬act.Revives p.node.address inc) :
    ∃ q, act.perform now p = .done q () ∧ q.node.Away inc ∧ q.node.address = p.node.address := by
  by_cases hmove : ∃ move, act = .move move
  · obtain ⟨move, rfl⟩ := hmove
    obtain ⟨n, hperform, haway', haddress⟩ := haway.perform h.reached.table.distinct now
      (fun hrejoin => hact (congrArg Act.move hrejoin)) hquiet
    exact ⟨p.withNode n, congrArg (Attempt.mapState p.withNode) hperform, haway', haddress⟩
  · exact ⟨p, h.idle now fun move hact => hmove ⟨move, hact⟩, haway, rfl⟩

/-- **A run without a return leaves the node away**, unless one of its acts revives it. -/
theorem away_run (h : Muted p) (haway : p.node.Away inc)
    (hacts : ∀ entry ∈ acts, entry.2 ≠ .move .rejoin)
    (hquiet : ∀ entry ∈ acts, ¬entry.2.Revives p.node.address inc) :
    ∃ q, p.run acts = .done q () ∧ q.node.Away inc ∧ q.node.address = p.node.address := by
  induction acts generalizing p with
  | nil => exact ⟨p, rfl, haway, rfl⟩
  | cons entry rest ih =>
      obtain ⟨now, act⟩ := entry
      obtain ⟨hact, hrest⟩ := List.forall_mem_cons.mp hacts
      obtain ⟨hfirst, hlater⟩ := List.forall_mem_cons.mp hquiet
      obtain ⟨p₁, hdone, haway₁, haddress⟩ := h.away_perform haway now hact hfirst
      rw [← haddress] at hlater
      obtain ⟨q, hrun, haway', haddress'⟩ := ih (h.perform hact hdone).1 haway₁ hrest hlater
      refine ⟨q, ?_, haway', haddress'.trans haddress⟩
      rw [Process.run, hdone, Attempt.andThen_done]
      exact hrun

/-- The node is spoken of by its name. -/
theorem address_ne_empty (h : Muted p) (haway : p.node.Away inc) : p.node.address ≠ "" := by
  rw [← haway.here]
  exact h.reached.table.named _ (Membership.mem_of_row?_eq_some haway.left.row).1

/-- **A run with an act that revives the node raises its incarnation**, if it is completed. -/
theorem revived_run (h : Muted p) (haway : p.node.Away inc)
    (hacts : ∀ entry ∈ acts, entry.2 ≠ .move .rejoin) {entry : Moment × Act} (hmem : entry ∈ acts)
    (hrevives : entry.2.Revives p.node.address inc) (hrun : p.run acts = .done q ()) :
    inc < q.node.membership.localIncarnation := by
  induction acts generalizing p with
  | nil => exact absurd hmem List.not_mem_nil
  | cons first rest ih =>
      obtain ⟨now, act⟩ := first
      obtain ⟨hact, hrest⟩ := List.forall_mem_cons.mp hacts
      rw [Process.run] at hrun
      obtain ⟨p₁, out, hdone, hlater⟩ := Attempt.andThen_eq_done hrun
      obtain ⟨hmuted, -⟩ := h.perform hact hdone
      by_cases hfirst : act.Revives p.node.address inc
      · -- what comes later does not take the incarnation back
        obtain ⟨-, hkeeps⟩ := hmuted.run hrest hlater
        refine UInt64.lt_of_lt_of_le ?_ (hkeeps.localIncarnation_le (here_hash_run hlater).1)
        cases act with
        | move move =>
            obtain ⟨n, hperform, rfl⟩ := Attempt.mapState_eq_done hdone
            exact haway.revived (h.address_ne_empty haway) hfirst hperform
        | _ => exact absurd hfirst id
      · obtain ⟨p₂, hdone', haway₁, haddress⟩ := h.away_perform haway now hact hfirst
        obtain ⟨rfl, -⟩ := Attempt.done.inj (hdone.symm.trans hdone')
        have hmem : entry ∈ rest := by
          refine (List.mem_cons.mp hmem).resolve_left ?_
          rintro rfl
          exact hfirst hrevives
        exact ih hmuted haway₁ hrest hmem (haddress ▸ hrevives) hlater

end Muted

/-- **A departure lasts exactly as long as nobody speaks of the node as down, or as alive since.**

    Take a node that has come about by any run, and that leaves when it is told to. It is recorded as
    left at the incarnation it had, is off the ring and suspects nobody. Let anything but a return
    happen to it, in any order. If nothing that it hears calls it back, that is completed, the node
    stays as it is, and a return succeeds: the node is alive at a greater incarnation, on the ring,
    and may suspect others again. If it hears that it is suspect, faulty or reaped, or alive at a
    greater incarnation, its row is another one for good. Suspicion stays disabled in either case, and
    a node that is recorded as alive again is refused a return. -/
theorem departure_lasts_iff {n : Node} (hp : p.Reached) (hleave : p.node.leave now = .done n (.ok ()))
    (hacts : ∀ entry ∈ acts, entry.2 ≠ .move .rejoin) :
    ∃ inc, n.membership.localRow? = some ⟨n.address, .leave, inc⟩ ∧ n.address ∉ n.ring.servers ∧
      n.suspicion.disabled = true ∧
      ((∀ entry ∈ acts, ¬entry.2.Revives n.address inc) →
        ∃ q, (p.withNode n).run acts = .done q () ∧ q.node.address = n.address ∧
          n.address ∉ q.node.ring.servers ∧
          (inc ≠ Membership.lastIncarnation → ∀ later, ∃ n' newer,
            q.node.rejoin later = .done n' (.ok ()) ∧ inc < newer ∧
            n'.membership.localRow? = some ⟨n.address, .alive, newer⟩ ∧
            n.address ∈ n'.ring.servers ∧ n'.suspicion.disabled = false)) ∧
      ∀ q, (p.withNode n).run acts = .done q () →
        q.node.suspicion.disabled = true ∧ q.node.suspicion.timers = [] ∧
        (q.node.membership.localRow? = some ⟨n.address, .leave, inc⟩ ↔
          ∀ entry ∈ acts, ¬entry.2.Revives n.address inc) ∧
        ∀ row, q.node.membership.localRow? = some row → row.status = .alive →
          ∀ later, q.node.rejoin later = .done q.node (.error .redundantJoin) := by
  obtain ⟨haway, -, hoff⟩ := Node.away_of_leave hp.orderly.here hp.table.named hleave
  have hleft : p.run [(now, .move .leave)] = .done (p.withNode n) () := by
    rw [run, Act.perform, Move.perform, hleave]
    rfl
  -- after the departure no timers run and no call to bootstrap is under way
  have hmuted : Muted (p.withNode n) := ⟨hp.run hleft, haway.left.ready, hoff⟩
  have haway : (p.withNode n).node.Away p.node.membership.localIncarnation := haway
  refine ⟨_, haway.here ▸ haway.left.row, haway.off, hoff, ?_, ?_⟩
  · intro hquiet
    obtain ⟨q, hrun, hlasts, haddress⟩ := hmuted.away_run haway hacts hquiet
    have haddress : q.node.address = n.address := haddress
    refine ⟨q, hrun, haddress, haddress ▸ hlasts.off, ?_⟩
    intro hroom later
    rw [← haddress]
    exact hlasts.rejoin ((hmuted.run hacts hrun).1.address_ne_empty hlasts) hroom later
  · intro q hrun
    obtain ⟨hmuted', -⟩ := hmuted.run hacts hrun
    refine ⟨hmuted'.disabled, hmuted'.timers, ⟨?_, ?_⟩, ?_⟩
    · -- a reviving act raises the incarnation, and rows only advance, so the row of the departure is
      -- gone
      rintro hrow ⟨at', act⟩ hmem hrevives
      have hraised := hmuted.revived_run haway hacts hmem hrevives hrun
      rw [Membership.localIncarnation_of_localRow? hrow] at hraised
      exact UInt64.lt_irrefl _ hraised
    · intro hquiet
      obtain ⟨q', hrun', hlasts, haddress⟩ := hmuted.away_run haway hacts hquiet
      obtain ⟨rfl, -⟩ := Attempt.done.inj (hrun.symm.trans hrun')
      have haddress : q.node.address = n.address := haddress
      rw [← haddress, ← hlasts.here]
      exact hlasts.left.row
    · intro row hrow halive later
      exact Node.rejoin_of_alive hmuted'.ready hrow halive later

/-- The node `a` leaves. Then it hears that it left by the word of `b`, that it was alive when it left,
    and that `b` is faulty. It is still away, and comes back when it is told to. -/
theorem departure_lasts_iff_until_return :
    ∃ node p n q n' newer,
      Node.createWith hash32 "a" { Settings.default with replicaPoints := 2 } .none = .ok node ∧
      (start node).run
        [(⟨7, 0⟩, .enter 0), (⟨7, 0⟩, .announce 0),
          (⟨8, 1⟩, .complete 0 [⟨some 1, [⟨"b", .alive, 5, "b", 5, 7⟩]⟩])] = .done p () ∧
      p.node.leave ⟨9, 2⟩ = .done n (.ok ()) ∧
      (p.withNode n).run
        [(⟨10, 3⟩, .move (.answerPing ⟨none, [⟨"a", .leave, 9, "b", 5, 9⟩, ⟨"a", .alive, 7, "b", 5, 9⟩,
          ⟨"b", .faulty, 5, "c", 1, 9⟩], "b", 5⟩)), (⟨11, 4⟩, .runOut), (⟨11, 4⟩, .enter 1)] =
        .done q () ∧
      q.node.membership.localRow? = some ⟨"a", .leave, 7⟩ ∧
      q.node.rejoin ⟨12, 5⟩ = .done n' (.ok ()) ∧ 7 < newer ∧
      n'.membership.localRow? = some ⟨"a", .alive, newer⟩ := by
  have hnode : Node.createWith hash32 "a" { Settings.default with replicaPoints := 2 } .none =
      .ok _ := rfl
  have hp : Reached _ := ⟨hash32, "a", _, .none, _,
    [(⟨7, 0⟩, .enter 0), (⟨7, 0⟩, .announce 0),
      (⟨8, 1⟩, .complete 0 [⟨some 1, [⟨"b", .alive, 5, "b", 5, 7⟩]⟩])], hnode,
    Attempt.eq_done_of_result? (by decide +kernel)⟩
  obtain ⟨inc, hrow, -, -, hlasts, hkept⟩ := @departure_lasts_iff ⟨9, 2⟩ _
    [(⟨10, 3⟩, .move (.answerPing ⟨none, [⟨"a", .leave, 9, "b", 5, 9⟩, ⟨"a", .alive, 7, "b", 5, 9⟩,
      ⟨"b", .faulty, 5, "c", 1, 9⟩], "b", 5⟩)), (⟨11, 4⟩, .runOut), (⟨11, 4⟩, .enter 1)]
    _ hp (Attempt.eq_done_of_result? (by decide +kernel)) (by simp)
  -- it left at the incarnation that it had drawn
  obtain rfl : inc = 7 := by
    have hseven : _ = some (⟨"a", .leave, 7⟩ : Member) := hrow.symm.trans (by decide +kernel)
    exact congrArg Member.incarnation (Option.some.inj hseven)
  obtain ⟨q, hrun, -, -, hreturn⟩ := hlasts (by decide +kernel)
  obtain ⟨n', newer, hrejoin, hlt, hback, -⟩ := hreturn (by decide) ⟨12, 5⟩
  obtain ⟨-, -, hstays, -⟩ := hkept q hrun
  exact ⟨_, _, _, q, n', newer, hnode, Attempt.eq_done_of_result? (by decide +kernel),
    Attempt.eq_done_of_result? (by decide +kernel), hrun, hstays.mpr (by decide +kernel), hrejoin, hlt,
    hback⟩

/-- The node `a` leaves and hears that it is suspect: it is alive and on the ring again, while suspicion
    stays disabled, and it cannot come back, since it never left. -/
theorem departure_undone_by_suspicion :
    ∃ node p n q,
      Node.createWith hash32 "a" { Settings.default with replicaPoints := 2 } .none = .ok node ∧
      (start node).run
        [(⟨7, 0⟩, .enter 0), (⟨7, 0⟩, .announce 0), (⟨8, 1⟩, .complete 0 [])] = .done p () ∧
      p.node.leave ⟨9, 2⟩ = .done n (.ok ()) ∧ n.membership.localRow? = some ⟨"a", .leave, 7⟩ ∧
      (p.withNode n).run [(⟨10, 3⟩, .move (.absorb [⟨"a", .suspect, 7, "b", 1, 8⟩]))] = .done q () ∧
      q.node.membership.localRow? = some ⟨"a", .alive, 10⟩ ∧ "a" ∈ q.node.ring.servers ∧
      q.node.suspicion.disabled = true ∧
      (q.node.rejoin ⟨11, 4⟩).result? = some (.error .redundantJoin) := by
  have hnode : Node.createWith hash32 "a" { Settings.default with replicaPoints := 2 } .none =
      .ok _ := rfl
  refine ⟨_, _, _, _, hnode, Attempt.eq_done_of_result? ?_, Attempt.eq_done_of_result? ?_, ?_,
    Attempt.eq_done_of_result? ?_, ?_, ?_, ?_, ?_⟩
  all_goals decide +kernel

end Process

end GossipRing
