import GossipRing.Network.Session
import GossipRing.Proofs.ClosedGate
import GossipRing.Proofs.Departure
import GossipRing.Proofs.Destruction
import GossipRing.Proofs.Refusals

/-!
# Bootstraps that fail

Toward: a bootstrap that fails while joining has only made the node claim that it is alive. While the
node asks its hosts everything else goes on, and what it is told meanwhile is held back.

* **`Node.announced`** — the node with its claim to be alive, in its table, on its ring and waiting to
  ride along. It is all that a bootstrap does before it joins (`Isolated.assert_eq_announced`).
* **`Node.Holds`** — a node has held claims back and is otherwise as it was. So it is after every stretch
  that goes on beside a call to bootstrap (`Isolated.holds_of_perform`), and after every run of them
  (`Orderly.holds_of_run`). **`Reached.isolated`** — a node is by itself until it has joined.
* **`FailedCall`**, **`FailedCall.exists_passes`** — a call that fails with all that goes on besides, and
  what it leaves behind (`Node.OnlyAnnounced`).
* **`World.JoinsOn`** — what may become of a join on a network, whatever its hosts answer
  (`World.joinsOn_takeAnswer`).
* **`Process.failures_spare_node`** — all of this, with what a node refuses.
-/

namespace GossipRing

/-! ## The claim to be alive -/

namespace Membership

variable {m : Membership} {now : Clock} {inc : UInt64} {received claims more : List Change}

/-- The table with the claim of the node that it is alive. A node without a name claims nothing. -/
def announced (m : Membership) (now : Clock) (inc : UInt64) : Membership :=
  if m.here = "" then m
  else (m.put ⟨m.here, .alive, inc⟩).conclude [m.ownClaim now m.here .alive inc]

/-- At a fresh incarnation the local member's aliveness is asserted without fail, and what it leaves
    is the announced table. -/
theorem assert_eq_announced (hfresh : m.freshIncarnation? now = some inc) :
    m.assert now m.here .alive inc = .done (m.announced now inc)
      (if m.here = "" then [] else [m.ownClaim now m.here .alive inc]) := by
  rw [assert_here_eq_applyBatch, announced]
  by_cases hempty : m.here = ""
  · rw [if_pos hempty, if_pos hempty]
    exact applyBatch_of_applied (.ignore (Or.inl (String.isEmpty_iff.mpr hempty)) .nil)
  · rw [if_neg hempty, if_neg hempty]
    exact applyBatch_of_applied
      (.accept (fun h => hempty (String.isEmpty_iff.mp h)) (accepts_of_fresh hfresh) .nil)

theorem gate_announced (m : Membership) (now : Clock) (inc : UInt64) :
    (m.announced now inc).gate = m.gate := by
  rw [announced]
  split
  · rfl
  · rw [gate_conclude, gate_put]

theorem holdBack_append (m : Membership) (claims more : List Change) :
    (m.holdBack claims).holdBack more = m.holdBack (claims ++ more) := by
  simp only [holdBack, Gate.stash, List.filter_append, List.append_assoc]

end Membership

namespace Node

variable {now : Moment} {n n' n₁ : Node} {inc : UInt64} {received claims more : List Change}
  {move : Move}

/-- The node with its claim to be alive: in its table, on its ring, and waiting to ride along. -/
def announced (n : Node) (now : Moment) (inc : UInt64) : Node :=
  if n.address = "" then n
  else
    { n with
      membership := n.membership.announced now.wall inc
      piggyback := n.piggyback.record (n.membership.ownClaim now.wall n.address .alive inc)
      ring := (n.ring.addRemove [n.address] []).1 }

theorem address_announced (n : Node) (now : Moment) (inc : UInt64) :
    (n.announced now inc).address = n.address := by
  rw [announced]
  split <;> rfl

/-- The announced node carries the announced table. -/
theorem membership_announced (hhere : n.membership.here = n.address) (now : Moment) (inc : UInt64) :
    (n.announced now inc).membership = n.membership.announced now.wall inc := by
  rw [announced]
  split
  · next hempty => rw [Membership.announced, if_pos (hhere.trans hempty)]
  · rfl

/-- Without timers there is none to stop. -/
theorem track_of_nil {s : Suspicion} {c : Change} (h : s.timers = []) (halive : c.status = .alive)
    (elapsed : Nat) : track elapsed s c = s := by
  obtain ⟨here, timeout, timers, generation, disabled⟩ := s
  obtain rfl : timers = [] := h
  rw [track, halive, if_neg (by decide)]
  rfl

/-- A member that owns positions is to be on the ring, and nobody is to be off it. -/
theorem addresses_of_owns {m : Membership} {c : Change} (h : ownsPositions m c = some true) :
    onRing m [c] = [c.address] ∧ offRing m [c] = [] := by
  simp only [onRing, offRing, List.filter_singleton, h, decide_true, cond_true]
  exact ⟨rfl, rfl⟩

namespace Isolated

/-- The only row of the table is then that of the claim. -/
theorem rows_announced (h : Isolated received n) (now : Clock) (inc : UInt64) :
    (n.membership.announced now inc).rows =
      if n.address = "" then n.membership.rows else [⟨n.address, .alive, inc⟩] := by
  rw [Membership.announced, h.here]
  split
  · rfl
  · refine (Membership.rows_conclude _ _).trans (Membership.rows_put_of_alone (h.rows.imp_right ?_))
    rintro ⟨old, hold⟩
    exact ⟨_, hold, rfl⟩

/-- **A node that is by itself announces itself** at a fresh incarnation. -/
theorem assert_eq_announced (h : Isolated received n)
    (hfresh : n.membership.freshIncarnation? now.wall = some inc) :
    ∃ effects, n.assert now n.address .alive inc = .done (n.announced now inc) effects := by
  have htable := Membership.assert_eq_announced hfresh
  rw [h.here] at htable
  rw [Node.assert, htable, announced]
  by_cases hempty : n.address = ""
  · rw [if_pos hempty, if_pos hempty, Membership.announced, if_pos (h.here.trans hempty)]
    exact ⟨[], rfl⟩
  · have hrow : (n.membership.announced now.wall inc).row? n.address =
        some ⟨n.address, .alive, inc⟩ := by
      rw [Membership.row?, h.rows_announced, if_neg hempty]
      exact List.find?_cons_of_pos (decide_eq_true rfl)
    have howns : ownsPositions (n.membership.announced now.wall inc)
        (n.membership.ownClaim now.wall n.address .alive inc) = some true := by
      rw [ownsPositions]
      exact congrArg (Option.map fun row => row.status.isPingable) hrow
    have hbatch := addresses_of_owns howns
    rw [if_neg hempty, if_neg hempty]
    refine ⟨[n.membership.ownClaim now.wall n.address .alive inc], ?_⟩
    show Attempt.done (spread _ now _) _ = _
    rw [spread]
    dsimp only [List.isEmpty_cons, List.foldl_cons, List.foldl_nil]
    rw [hbatch.1, hbatch.2, track_of_nil h.timers rfl]
    rfl

/-- An announcement does not end the isolation of a node. -/
theorem announced (h : Isolated received n)
    (hfresh : n.membership.freshIncarnation? now.wall = some inc) :
    Isolated received (n.announced now inc) := by
  obtain ⟨n', effects, hassert, hafter⟩ := h.assert_here now inc
  obtain ⟨effects', hannounced⟩ := h.assert_eq_announced hfresh
  obtain ⟨rfl, -⟩ := Attempt.done.inj (hassert.symm.trans hannounced)
  exact hafter

end Isolated

/-! ## What goes on meanwhile -/

/-- Behind the closed gate these claims were held back. Some that waited to ride along are gone, as are
    timers; table, ring and place in the cluster are otherwise as they were. -/
structure Holds (claims : List Change) (n n' : Node) : Prop where
  address : n'.address = n.address
  membership : n'.membership = n.membership.holdBack claims
  ring : n'.ring = n.ring
  pending : (n'.piggyback.pending.map Pending.change).Sublist
    (n.piggyback.pending.map Pending.change)
  timers : ∀ t ∈ n'.suspicion.timers, ∃ u ∈ n.suspicion.timers, u.mention = t.mention
  bootstrapped : n'.bootstrapped = n.bootstrapped

/-- No adjustment moves the ring. -/
theorem Adjusts.ring (h : n.Adjusts move n') : n'.ring = n.ring := by
  cases h with
  | configure hconfigure =>
      obtain ⟨merged, -, rfl⟩ := configure_eq_ok hconfigure
      rfl
  | rejoin =>
      rw [startGossip]
      split <;> rfl
  | _ => rfl

namespace Holds

theorem holdBack (n : Node) (claims : List Change) :
    Holds claims n { n with membership := n.membership.holdBack claims } where
  address := rfl
  membership := rfl
  ring := rfl
  pending := List.Sublist.refl _
  timers t ht := ⟨t, ht, rfl⟩
  bootstrapped := rfl

theorem refl (hgate : n.membership.gate = .closed received) : Holds [] n n := by
  have hnothing := holdBack n []
  rw [Membership.holdBack_nil hgate] at hnothing
  exact hnothing

theorem trans (h : Holds claims n n₁) (h' : Holds more n₁ n') : Holds (claims ++ more) n n' where
  address := h'.address.trans h.address
  membership := by rw [h'.membership, h.membership, Membership.holdBack_append]
  ring := h'.ring.trans h.ring
  pending := h'.pending.trans h.pending
  timers t ht := by
    obtain ⟨u, hu, hmention⟩ := h'.timers t ht
    obtain ⟨v, hv, hmention'⟩ := h.timers u hu
    exact ⟨v, hv, hmention'.trans hmention⟩
  bootstrapped := h'.bootstrapped.trans h.bootstrapped

/-- The rest of the node was adjusted after that. -/
theorem adjust (h : Holds claims n n₁) (hadjusts : n₁.Adjusts move n') : Holds claims n n' where
  address := hadjusts.idles.address.trans h.address
  membership := hadjusts.idles.table.trans h.membership
  ring := hadjusts.ring.trans h.ring
  pending := hadjusts.idles.pending.trans h.pending
  timers t ht := by
    obtain ⟨u, hu, hmention⟩ := hadjusts.idles.timers t ht
    obtain ⟨v, hv, hmention'⟩ := h.timers u hu
    exact ⟨v, hv, hmention'.trans hmention⟩
  bootstrapped := hadjusts.bootstrapped.trans h.bootstrapped

/-- A node that is by itself stays so. -/
theorem isolated (h : Holds claims n n') (hisolated : Isolated received n) :
    Isolated (received ++ claims.filter fun c => !c.isMalformed) n' := by
  refine (hisolated.holdBack claims).aside h.address h.membership h.ring (Or.inr ?_)
  refine List.eq_nil_iff_forall_not_mem.mpr fun t ht => ?_
  obtain ⟨u, hu, -⟩ := h.timers t ht
  rw [hisolated.timers] at hu
  exact absurd hu List.not_mem_nil

end Holds

end Node

/-- The claims that a stretch brings to a node that has not joined: those that it hears from others, and
    those that it makes about them. -/
def Move.brought (now : Moment) (n : Node) : Move → List Change
  | takeIn source inc =>
    if source = n.address then [] else [n.membership.ownClaim now.wall source .alive inc]
  | answerPing request => request.changes
  | receivePingReq request => request.changes
  | absorb changes => changes
  | judge target verdict =>
    verdict.status?.toList.map fun status =>
      n.membership.ownClaim now.wall target.address status target.incarnation
  | _ => []

/-- A quiet move brings no claim. -/
theorem Move.brought_of_quiet (move : Move) (hquiet : move.IsQuiet) (now : Moment) (n : Node) :
    move.brought now n = [] := by
  cases move
  all_goals first
    | rfl
    | exact False.elim hquiet

/-- The stretch may go on at the node with this address. None probes itself. -/
def Move.Besides (here : String) : Move → Prop
  | judge target _ => target.address ≠ here
  | _ => True

namespace Node.Isolated

variable {now : Moment} {n n' : Node} {received : List Change} {move : Move}

/-- Behind a closed gate an assertion about anybody but the local member's own life is held back. -/
theorem holds_of_assert (h : Isolated received n) {address : String} {status : Status} {inc : UInt64}
    {effects : List Change} (hother : ¬(status = .alive ∧ address = n.address))
    (hassert : n.assert now address status inc = .done n' effects) :
    Holds [n.membership.ownClaim now.wall address status inc] n n' := by
  rw [← h.here] at hother
  obtain ⟨rfl, -⟩ := Attempt.done.inj ((assert_of_closed h.closed hother).symm.trans hassert)
  exact .holdBack n _

theorem holds_of_update (h : Isolated received n) {changes effects : List Change}
    (hupdate : n.update now changes = .done n' effects) : Holds changes n n' := by
  obtain ⟨rfl, -⟩ := Attempt.done.inj ((update_of_closed h.closed).symm.trans hupdate)
  exact .holdBack n _

/-- **Of a stretch that goes on meanwhile a node holds back what it is told.** -/
theorem holds_of_perform (h : Isolated received n) (hbesides : move.Besides n.address)
    (hperform : move.perform now n = .done n' ()) : Holds (move.brought now n) n n' := by
  have hidle : n = n' → Holds [] n n' := by
    rintro rfl
    exact .refl h.gate
  -- a quiet move brings nothing, and every other one is held back as a whole
  by_cases hquiet : move.IsQuiet
  · rw [move.brought_of_quiet hquiet]
    exact (Holds.refl h.gate).adjust (adjusts_of_quiet hquiet hperform)
  cases move with
  | takeIn source inc =>
      rw [Move.perform] at hperform
      rw [Move.brought]
      split at hperform
      · next hself =>
        rw [if_pos hself]
        exact hidle (Attempt.done.inj hperform).1
      · next hother =>
        rw [if_neg hother]
        obtain ⟨effects, hassert, -⟩ := Attempt.map_eq_done hperform
        exact h.holds_of_assert (fun hown => hother hown.2) hassert
  | answerPing request =>
      obtain ⟨response, hanswer, -⟩ := Attempt.map_eq_done hperform
      obtain ⟨n₁, effects, hupdate, rfl, -⟩ := answerPing_eq_done hanswer
      have hanswered : n₁.Adjusts (.answerPing request) (n₁.answerWith now request.checksum).1 := by
        rw [answerWith_fst]
        exact .handOut
      exact (h.holds_of_update hupdate).adjust hanswered
  | receivePingReq request =>
      obtain ⟨effects, hupdate, -⟩ := Attempt.map_eq_done hperform
      exact h.holds_of_update hupdate
  | absorb changes =>
      obtain ⟨effects, habsorb, -⟩ := Attempt.map_eq_done hperform
      rw [absorb] at habsorb
      split at habsorb
      · next hempty =>
        rw [Move.brought, List.isEmpty_iff.mp hempty]
        exact hidle (Attempt.done.inj habsorb).1
      · exact h.holds_of_update habsorb
  | judge target verdict =>
      obtain ⟨effects, hjudge, -⟩ := Attempt.map_eq_done hperform
      rw [judge_eq] at hjudge
      rw [Move.brought]
      cases hstatus : verdict.status? with
      | none =>
          rw [hstatus] at hjudge
          exact hidle (Attempt.done.inj hjudge).1
      | some status =>
          rw [hstatus] at hjudge
          exact h.holds_of_assert (fun hown => hbesides hown.2) hjudge
  | leave =>
      obtain ⟨e, hrefused⟩ := h.ownRow_eq_error
      rw [Move.perform, Node.leave, hrefused] at hperform
      exact hidle (Attempt.done.inj hperform).1
  | rejoin =>
      obtain ⟨e, hrefused⟩ := h.ownRow_eq_error
      rw [Move.perform, Node.rejoin, hrefused] at hperform
      exact hidle (Attempt.done.inj hperform).1
  | reap =>
      rw [Move.perform, h.reap_eq] at hperform
      exact hidle (Attempt.done.inj hperform).1
  | _ => exact absurd trivial hquiet

end Node.Isolated

/-! ## Before a bootstrap -/

/-- The claims that an act brings to a node that has not joined. -/
def Act.brought (now : Moment) (n : Node) : Act → List Change
  | move m => m.brought now n
  | _ => []

/-- The act may go on at the node with this address beside a call to bootstrap: it belongs to no
    other stage of the call, and the node does not probe itself. -/
def Act.Besides (call : ℕ) (here : String) : Act → Prop
  | move m => m.Besides here
  | enter d => d ≠ call
  | announce d => d ≠ call
  | fail d => d ≠ call
  | complete d _ => d ≠ call
  | _ => True

namespace Membership

/-- No operation closes the gate again. -/
theorem Op.isReady_of_ready {now : Clock} {m m' : Membership} {effects : List Change} (op : Op)
    (hready : m.isReady = true) (h : op.apply now m = .done m' effects) : m'.isReady = true := by
  cases op with
  | update claims localAlive =>
      rcases gate_update h with hgate | ⟨hclosed, -⟩
      · rw [isReady, hgate]
        exact hready
      · rw [hready] at hclosed
        cases hclosed
  | assert address status inc =>
      have hrespects : (Op.assert address status inc).RespectsGate := trivial
      exact (hrespects.ready h).trans hready
  | adopt snapshots =>
      -- releasing the stash of an opened gate leaves it opened
      obtain ⟨rfl, -⟩ := Attempt.done.inj h
      rw [isReady, gate_adopt, releaseStash]
      cases hgate : m.gate with
      | opened =>
          dsimp only
          rw [hgate]
          rfl
      | closed received =>
          rw [isReady, hgate] at hready
          cases hready
  | openGate => exact isReady_openGate h

end Membership

namespace Process

variable {now : Moment} {p q : Process} {act : Act} {acts : List (Moment × Act)} {call : ℕ}
  {received : List Change}

/-- A node that has joined has joined for good. -/
theorem isReady_of_step (hready : p.node.membership.isReady = true) (h : Step now p q) :
    q.node.membership.isReady = true := by
  refine step_induction (P := fun _ n => n.membership.isReady = true) ?_ ?_ ?_ hready h
  · intro sent n n' hn haside
    rw [haside.membership]
    exact hn
  · intro sent now op n n' effects hn hsettle
    obtain ⟨m, happly, rfl⟩ := Node.settle_eq_done hsettle
    rw [Node.membership_spread]
    exact op.isReady_of_ready hn happly
  · exact fun hn _ => hn

/-- A node whose bootstrap has not begun, or has failed, has not joined. -/
theorem Orderly.closed_of_free (h : Orderly p) (hfree : p.node.bootstrapped = false) :
    p.node.membership.isReady = false ∧ ∀ i, p.calls i = .outside := by
  have houtside : ∀ i, p.calls i = .outside := by
    intro i
    by_contra hi
    exact absurd ((h.begun i hi).symm.trans hfree) (by decide)
  refine ⟨?_, houtside⟩
  by_contra hready
  rw [Bool.not_eq_false] at hready
  obtain ⟨i, hi⟩ := h.opened hready
  rw [houtside i] at hi
  cases hi

/-- A node that probes itself stays by itself, too. -/
theorem isolated_of_judge {n n' : Node} {target : Member} {verdict : Verdict} {effects : List Change}
    (h : n.Isolated received) (hself : target.address = n.address)
    (hjudge : n.judge now target verdict = .done n' effects) : ∃ received, n'.Isolated received := by
  rw [Node.judge_eq, hself] at hjudge
  cases verdict with
  | reachable =>
      obtain ⟨n₁, effects', hassert, hafter⟩ := h.assert_here now target.incarnation
      obtain ⟨rfl, -⟩ := Attempt.done.inj (hassert.symm.trans hjudge)
      exact ⟨_, hafter⟩
  | unreachable =>
      have hholds := h.holds_of_assert (fun hown => absurd hown.1 (by decide)) hjudge
      exact ⟨_, hholds.isolated h⟩
  | noHelpers =>
      have hholds := h.holds_of_assert (fun hown => absurd hown.1 (by decide)) hjudge
      exact ⟨_, hholds.isolated h⟩
  | inconclusive =>
      obtain ⟨rfl, -⟩ := Attempt.done.inj hjudge
      exact ⟨_, h⟩

/-- **A node is by itself until it has joined.** -/
theorem Orderly.isolated_of_step (hp : Orderly p) (hisolated : p.node.Isolated received)
    (h : Step now p q) :
    q.node.membership.isReady = true ∨ ∃ received, q.node.Isolated received := by
  cases h with
  | idle => exact Or.inr ⟨_, hisolated⟩
  | @move move n hperform =>
      refine Or.inr ?_
      -- the one assertion that is not held back is that of the local member's own life
      by_cases hbesides : move.Besides p.node.address
      · exact ⟨_, (hisolated.holds_of_perform hbesides hperform).isolated hisolated⟩
      · cases move with
        | judge target verdict =>
            obtain ⟨effects, hjudge, -⟩ := Attempt.map_eq_done hperform
            exact isolated_of_judge hisolated (not_not.mp hbesides) hjudge
        | _ => exact absurd trivial hbesides
  | enter => exact Or.inr ⟨_, hisolated.aside rfl rfl rfl (Or.inl rfl)⟩
  | @announce _ inc n effects _ hassert =>
      obtain ⟨n', effects', hassert', hafter⟩ := hisolated.assert_here now inc
      obtain ⟨rfl, -⟩ := Attempt.done.inj (hassert'.symm.trans hassert)
      exact Or.inr ⟨_, hafter⟩
  | fail => exact Or.inr ⟨_, hisolated.aside rfl rfl rfl (Or.inl rfl)⟩
  | complete _ hcomplete =>
      obtain ⟨-, -, -, hready, -⟩ :=
        Node.completeBootstrap_keeps (hp.secluded hisolated.closed) hcomplete
      exact Or.inl hready
  | runOut =>
      refine Or.inr ⟨_, hisolated.aside rfl rfl rfl (Or.inl ?_)⟩
      show (p.node.suspicion.runOut now.elapsed).1.timers = _
      rw [Suspicion.runOut_of_nil hisolated.timers]
  | expire _ hcounts =>
      rw [Suspicion.claim_of_nil hisolated.timers] at hcounts
      cases hcounts

/-- As long as nothing opens the gate a run stays isolated, whatever is held back on the way. -/
theorem Orderly.isolated_of_run (hp : Orderly p)
    (hapart : p.node.membership.isReady = true ∨ ∃ received, p.node.Isolated received)
    (hrun : p.run acts = .done q ()) :
    q.node.membership.isReady = true ∨ ∃ received, q.node.Isolated received := by
  induction acts generalizing p with
  | nil =>
      obtain ⟨rfl, -⟩ := Attempt.done.inj hrun
      exact hapart
  | cons entry rest ih =>
      obtain ⟨now, act⟩ := entry
      rw [Process.run] at hrun
      obtain ⟨p₁, out, hact, hrest⟩ := Attempt.andThen_eq_done hrun
      have hstep := step_of_perform hact
      refine ih (hp.step hstep).1 ?_ hrest
      rcases hapart with hready | ⟨received, hisolated⟩
      · exact Or.inl (isReady_of_step hready hstep)
      · exact hp.isolated_of_step hisolated hstep

/-- Until its gate opens, a process that has been reached is isolated. -/
theorem Reached.isolated (hp : p.Reached) (hclosed : p.node.membership.isReady = false) :
    ∃ received, p.node.Isolated received := by
  obtain ⟨hash, address, settings, chance, n, acts, hnode, hrun⟩ := hp
  have hstart : (start n).node.Isolated [] := .createWith hnode
  refine ((Orderly.start hnode).isolated_of_run (Or.inr ⟨[], hstart⟩) hrun).resolve_left ?_
  rw [hclosed]
  decide

/-! ## What goes on beside a call to bootstrap -/

/-- The claims that a run brings to a node that has not joined. -/
def brought (p : Process) : List (Moment × Act) → List Change
  | [] => []
  | (now, act) :: rest => act.brought now p.node ++ brought (act.perform now p).state rest

/-- While a call to bootstrap is under way no other one is. -/
theorem Orderly.outside_of_ne (h : Orderly p) (hcall : p.calls call ≠ .outside) {other : ℕ}
    (hother : other ≠ call) : p.calls other = .outside := by
  by_contra hstands
  exact hother (h.alone other call hstands hcall)

/-- **Beside a call the node holds back what it is told**, and no call gets further. -/
theorem Orderly.holds_of_perform (hp : Orderly p) (hisolated : p.node.Isolated received)
    (hcall : p.calls call ≠ .outside) (hbesides : act.Besides call p.node.address)
    (h : act.perform now p = .done q ()) :
    p.node.Holds (act.brought now p.node) q.node ∧ q.calls = p.calls := by
  have hidle : p = q → p.node.Holds [] q.node ∧ q.calls = p.calls := by
    rintro rfl
    exact ⟨.refl hisolated.gate, rfl⟩
  cases act with
  | move move =>
      obtain ⟨n, hperform, rfl⟩ := Attempt.mapState_eq_done h
      exact ⟨hisolated.holds_of_perform hbesides hperform, rfl⟩
  -- no other call can enter: the one under way has set the flag that entering looks at
  | enter other =>
      rw [Act.perform, if_neg] at h
      · exact hidle (Attempt.done.inj h).1
      · rintro ⟨-, hfree⟩
        exact absurd ((hp.begun call hcall).symm.trans hfree) (by decide)
  | announce other =>
      rw [Act.perform, hp.outside_of_ne hcall hbesides] at h
      exact hidle (Attempt.done.inj h).1
  | fail other =>
      rw [Act.perform, hp.outside_of_ne hcall hbesides] at h
      exact hidle (Attempt.done.inj h).1
  | complete other snapshots =>
      rw [Act.perform, hp.outside_of_ne hcall hbesides] at h
      exact hidle (Attempt.done.inj h).1
  | runOut =>
      obtain ⟨rfl, -⟩ := Attempt.done.inj h
      refine ⟨?_, rfl⟩
      rw [Node.runOut, Suspicion.runOut_of_nil hisolated.timers]
      exact .refl hisolated.gate
  | expire e =>
      rw [Act.perform] at h
      split at h
      · rw [Node.expire, Suspicion.claim_of_nil hisolated.timers] at h
        exact hidle (Attempt.done.inj h).1
      · exact hidle (Attempt.done.inj h).1

/-- **So it does throughout a run.** -/
theorem Orderly.holds_of_run (hp : Orderly p) (hisolated : p.node.Isolated received)
    (hcall : p.calls call ≠ .outside)
    (hbesides : ∀ entry ∈ acts, entry.2.Besides call p.node.address)
    (hrun : p.run acts = .done q ()) :
    p.node.Holds (p.brought acts) q.node ∧ q.calls = p.calls := by
  induction acts generalizing p received with
  | nil =>
      obtain ⟨rfl, -⟩ := Attempt.done.inj hrun
      exact ⟨.refl hisolated.gate, rfl⟩
  -- a later stretch holds back more on top of what an earlier one has
  | cons entry rest ih =>
      obtain ⟨now, act⟩ := entry
      rw [Process.run] at hrun
      obtain ⟨p₁, out, hact, hrest⟩ := Attempt.andThen_eq_done hrun
      obtain ⟨hholds, hcalls⟩ :=
        hp.holds_of_perform hisolated hcall (hbesides _ List.mem_cons_self) hact
      obtain ⟨hlater, hsame⟩ := ih (hp.step (step_of_perform hact)).1 (hholds.isolated hisolated)
        (hcalls.symm ▸ hcall)
        (fun entry hentry => hholds.address.symm ▸ hbesides entry (List.mem_cons_of_mem _ hentry)) hrest
      refine ⟨?_, hsame.trans hcalls⟩
      rw [brought, hact]
      exact hholds.trans hlater

end Process

/-! ## A call that fails -/

namespace Node

variable {now : Moment} {n n' : Node} {inc : UInt64} {received : List Change}

/-- A node that is by itself is free to bootstrap, and announces itself as it begins. -/
theorem Isolated.beginBootstrap_eq (h : Isolated received n) (halive : n.destroyed = false)
    (hfree : n.bootstrapped = false)
    (hfresh : n.membership.freshIncarnation? now.wall = some inc) :
    n.beginBootstrap now =
      .done (({ n with bootstrapped := true } : Node).announced now inc) (.ok ()) := by
  have hbegun : Isolated received { n with bootstrapped := true } :=
    h.aside rfl rfl rfl (Or.inl rfl)
  obtain ⟨effects, hassert⟩ := hbegun.assert_eq_announced hfresh
  have hassert : ({ n with bootstrapped := true } : Node).assert now n.address .alive inc = _ := hassert
  rw [beginBootstrap, if_neg (ne_true_of_eq_false halive), if_neg (ne_true_of_eq_false hfree)]
  dsimp only
  rw [hfresh]
  dsimp only
  rw [hassert]
  rfl

/-- A node that is not bootstrapping refuses to do so only if it was destroyed. -/
theorem refuses_bootstrap_iff {e : NodeError} (hfree : n.bootstrapped = false) :
    Refuses n .bootstrap e ↔ n.destroyed = true ∧ e = .joinAborted := by
  constructor
  · intro h
    cases h with
    | noRow hd => rcases hd with hd | hd <;> cases hd
    | notReady hd => rcases hd with hd | hd <;> cases hd
    | destroyed hdestroyed => exact ⟨hdestroyed, rfl⟩
    | begun _ hbegun => exact absurd (hfree.symm.trans hbegun) (by decide)
  · rintro ⟨hdestroyed, rfl⟩
    exact .destroyed hdestroyed

/-- A node that was destroyed does not begin. -/
theorem alive_of_beginBootstrap (h : n.beginBootstrap now = .done n' (.ok ())) :
    n'.destroyed = false := by
  cases hdestroyed : n.destroyed with
  | true =>
      rw [beginBootstrap, if_pos hdestroyed] at h
      cases (Attempt.done.inj h).2
  | false =>
      rcases beginBootstrap_cases h with ⟨-, hrefused⟩ | ⟨inc, effects, -, hassert⟩
      · exact absurd rfl hrefused
      · exact (destroyed_settle hassert).trans hdestroyed

/-- All that has changed of the node is that it has claimed to be alive at this incarnation, between
    the claims that were brought early and late, which it holds back. -/
structure OnlyAnnounced (early late : List Change) (now : Moment) (inc : UInt64) (n n' : Node) :
    Prop where
  newer : n.membership.localIncarnation < inc
  address : n'.address = n.address
  table : n'.membership = ((n.membership.holdBack early).announced now.wall inc).holdBack late
  rows : n'.membership.rows =
    if n.address = "" then n.membership.rows else [⟨n.address, .alive, inc⟩]
  gate : n'.membership.gate =
    .closed (n.membership.gate.stash ++ (early ++ late).filter fun c => !c.isMalformed)
  ring : n'.ring = if n.address = "" then n.ring else (n.ring.addRemove [n.address] []).1
  pending : (n'.piggyback.pending.map Pending.change).Sublist
    (n.piggyback.pending.map Pending.change ++
      [n.membership.ownClaim now.wall n.address .alive inc])
  timers : n'.suspicion.timers = []
  bootstrapped : n'.bootstrapped = false

/-- The claim waits behind those that waited before. -/
theorem pending_announced (n : Node) (now : Moment) (inc : UInt64) :
    ((n.announced now inc).piggyback.pending.map Pending.change).Sublist
      (n.piggyback.pending.map Pending.change ++
        [n.membership.ownClaim now.wall n.address .alive inc]) := by
  rw [announced]
  split
  · exact List.sublist_append_left _ _
  · show ((_ ++ [⟨_, 0⟩] : List Pending).map Pending.change).Sublist _
    rw [List.map_append]
    exact (List.filter_sublist.map _).append_right _

/-- An announcement puts the node's own address on the ring, and nothing else. -/
theorem ring_announced (n : Node) (now : Moment) (inc : UInt64) :
    (n.announced now inc).ring =
      if n.address = "" then n.ring else (n.ring.addRemove [n.address] []).1 := by
  rw [announced]
  split <;> rfl

/-- **Between what was brought early and late** the node has announced itself. -/
theorem Holds.onlyAnnounced {n₁ n₂ : Node} {early late : List Change} (hisolated : Isolated received n)
    (hearly : Holds early { n with bootstrapped := true } n₁)
    (hfresh : n₁.membership.freshIncarnation? now.wall = some inc)
    (hlate : Holds late (n₁.announced now inc) n₂) :
    OnlyAnnounced early late now inc n n₂.failBootstrap := by
  have hbegun : Isolated received { n with bootstrapped := true } :=
    hisolated.aside rfl rfl rfl (Or.inl rfl)
  have hmid := hearly.isolated hbegun
  have haddress : n₁.address = n.address := hearly.address
  have hheld : n₁.membership = n.membership.holdBack early := hearly.membership
  have htable : n₂.membership = ((n.membership.holdBack early).announced now.wall inc).holdBack late := by
    rw [hlate.membership, membership_announced hmid.here, hheld]
  constructor
  · have hlt := Membership.lt_of_freshIncarnation? hfresh
    rw [hheld] at hlt
    exact hlt
  · exact hlate.address.trans ((address_announced n₁ now inc).trans haddress)
  · exact htable
  · have hrows := hmid.rows_announced now.wall inc
    rw [haddress, hheld] at hrows
    show n₂.membership.rows = _
    rw [htable]
    exact hrows
  · show n₂.membership.gate = _
    rw [htable, Membership.holdBack, Membership.gate_announced, Membership.holdBack,
      List.filter_append, ← List.append_assoc]
    rfl
  · have hring : n₁.ring = n.ring := hearly.ring
    show n₂.ring = _
    rw [hlate.ring, ring_announced, haddress, hring]
  · have hpending := pending_announced n₁ now inc
    rw [haddress, hheld] at hpending
    exact (hlate.pending.trans hpending).trans (hearly.pending.append_right _)
  · exact (hlate.isolated (hmid.announced hfresh)).timers
  · rfl

end Node

/-- A call to bootstrap that fails while joining, with what goes on besides: before the node announces
    itself, and after that. -/
structure FailedCall where
  call : ℕ
  entered : Moment
  early : List (Moment × Act)
  announced : Moment
  late : List (Moment × Act)
  failed : Moment

namespace FailedCall

/-- All that goes on. -/
def acts (f : FailedCall) : List (Moment × Act) :=
  (f.entered, .enter f.call) :: (f.early ++ (f.announced, .announce f.call) :: (f.late ++
    [(f.failed, .fail f.call)]))

/-- What goes on besides may do so at the node with this address. -/
def Apart (f : FailedCall) (here : String) : Prop :=
  ∀ entry ∈ f.early ++ f.late, entry.2.Besides f.call here

/-- The call takes the node to its switch, to its announcement and back to its switch, and does nothing
    else. Whatever goes on besides finds the node as it left it. -/
structure Passes (f : FailedCall) (p p₁ p₂ q : Process) (inc : UInt64) : Prop where
  early : (p.enter f.call).run f.early = .done p₁ ()
  fresh : p₁.node.membership.freshIncarnation? f.announced.wall = some inc
  late : ((p₁.withNode (p₁.node.announced f.announced inc)).withStage f.call .joining).run f.late =
    .done p₂ ()
  last : q = (p₂.withNode p₂.node.failBootstrap).withStage f.call .outside

variable {f : FailedCall} {p q p₁ : Process} {received : List Change} {now : Moment}

/-- The node announces itself. -/
theorem announce_eq (hisolated : p.node.Isolated received) {call : ℕ}
    (hentered : p.calls call = .entered) (h : (Act.announce call).perform now p = .done q ()) :
    ∃ inc, p.node.membership.freshIncarnation? now.wall = some inc ∧
      q = (p.withNode (p.node.announced now inc)).withStage call .joining := by
  rw [Act.perform, if_pos hentered, Process.announce] at h
  cases hfresh : p.node.membership.freshIncarnation? now.wall with
  | none =>
      rw [hfresh] at h
      cases h
  | some inc =>
      obtain ⟨effects, hassert⟩ := hisolated.assert_eq_announced hfresh
      rw [hfresh] at h
      dsimp only at h
      rw [hassert] at h
      exact ⟨inc, rfl, (Attempt.done.inj h).1.symm⟩

/-- **A call that fails has only made the node announce itself.** -/
theorem exists_passes (hp : p.Reached) (hfree : p.node.bootstrapped = false)
    (hapart : f.Apart p.node.address) (hrun : p.run f.acts = .done q ()) :
    ∃ p₁ p₂ inc, f.Passes p p₁ p₂ q inc ∧
      p.node.OnlyAnnounced ((p.enter f.call).brought f.early)
        (((p₁.withNode (p₁.node.announced f.announced inc)).withStage f.call .joining).brought f.late)
        f.announced inc q.node := by
  obtain ⟨hclosed, houtside⟩ := hp.orderly.closed_of_free hfree
  obtain ⟨received, hisolated⟩ := hp.isolated hclosed
  rw [acts, Process.run, Act.perform, if_pos ⟨houtside f.call, hfree⟩, Attempt.andThen_done,
    Process.run_append] at hrun
  obtain ⟨p₁, _, hearly, hrun⟩ := Attempt.andThen_eq_done hrun
  obtain ⟨p₁', _, hannounce, hrun⟩ := Attempt.andThen_eq_done hrun
  rw [Process.run_append] at hrun
  obtain ⟨p₂, _, hlate, hrun⟩ := Attempt.andThen_eq_done hrun
  obtain ⟨q', _, hfail, hlast⟩ := Attempt.andThen_eq_done hrun
  obtain ⟨rfl, -⟩ := Attempt.done.inj hlast
  -- the call has entered, and beside it claims are held back
  have horderly : (p.enter f.call).Orderly := hp.orderly.enter hfree
  have hentered : (p.enter f.call).calls f.call = .entered := by
    rw [Process.enter, Process.calls_withStage, if_pos rfl]
  have hbegun : (p.enter f.call).node.Isolated received := hisolated.aside rfl rfl rfl (Or.inl rfl)
  obtain ⟨hheld, hcalls⟩ := horderly.holds_of_run hbegun (by rw [hentered]; decide)
    (fun entry hentry => hapart entry (List.mem_append_left _ hentry)) hearly
  have hentered₁ : p₁.calls f.call = .entered := by rw [hcalls, hentered]
  have hisolated₁ := hheld.isolated hbegun
  have horderly₁ := (horderly.run hearly).1
  -- it announces itself
  obtain ⟨inc, hfresh, rfl⟩ := announce_eq hisolated₁ hentered₁ hannounce
  have horderly₁' := (horderly₁.step (Process.step_of_perform hannounce)).1
  have hjoining : ((p₁.withNode (p₁.node.announced f.announced inc)).withStage f.call .joining).calls
      f.call = .joining := by
    rw [Process.calls_withStage, if_pos rfl]
  have haddress : (p₁.node.announced f.announced inc).address = p.node.address :=
    (Node.address_announced _ _ _).trans hheld.address
  -- and fails, after claims were held back again
  obtain ⟨hheld', hcalls'⟩ := horderly₁'.holds_of_run (hisolated₁.announced hfresh)
    (by rw [hjoining]; decide)
    (fun entry hentry => haddress.symm ▸ hapart entry (List.mem_append_right _ hentry)) hlate
  rw [Act.perform, if_pos (by rw [hcalls', hjoining])] at hfail
  obtain ⟨rfl, -⟩ := Attempt.done.inj hfail
  exact ⟨p₁, p₂, inc, ⟨hearly, hfresh, hlate, rfl⟩,
    Node.Holds.onlyAnnounced hisolated hheld hfresh hheld'⟩

end FailedCall

/-! ## Whatever the hosts answer -/

/-- No answer changes how many hosts are to be joined. -/
theorem Join.wanted_take (join : Join) (host : String) (answer : Option JoinResponse) :
    (join.take host answer).wanted = join.wanted := by
  cases answer with
  | none => rfl
  | some r =>
      rw [take]
      dsimp only
      split <;> rfl

namespace World

open Network

variable {w : World} {id index : ℕ} {n : Node} {join : Join} {gossip : Bool} {run : Run}

/-- A request that sets out is one more call, with an errand at most. -/
theorem send_eq (w : World) (run : ℕ) (asker : Asker) (sender : Option ℕ) (origin target : String)
    (endpoint : Endpoint) (body : Json) (timeout : Option Duration) (atOnce : Bool) :
    ∃ calls errands, w.send run asker sender origin target endpoint body timeout atOnce =
      { w with calls := calls, errands := errands, serial := w.serial + 1 } := by
  rw [send]
  dsimp only
  split
  · cases atOnce <;> exact ⟨_, _, rfl⟩
  · split
    · cases atOnce <;> exact ⟨_, _, rfl⟩
    · split
      · exact ⟨_, _, rfl⟩
      · cases atOnce <;> exact ⟨_, _, rfl⟩

/-- Ending a node's gossip loop does not change any peer. -/
theorem peers_endLoop (w : World) (index : ℕ) : (w.endLoop index).peers = w.peers := by
  rw [endLoop]
  generalize (w.runs.filter (isLoopOf index)).map Run.id = ids
  induction ids generalizing w with
  | nil => rfl
  | cons id rest ih => exact ih (w.dropRun id)

/-- A bootstrap that fails concerns its own node only, which stops probing if it was told so. -/
theorem peers_failBootstrap (w : World) (id index : ℕ) (n : Node) (gossip : Bool) (e : NodeError) :
    (w.failBootstrap id index n gossip e).peers =
      w.peers.set index
        (.node (if gossip then n.failBootstrap else n.failBootstrap.stopGossip.1)) := by
  rw [failBootstrap, endBootstrap]
  cases gossip with
  | true => rfl
  | false =>
      show (endLoop _ index).peers = _
      rw [peers_endLoop]
      exact List.set_set _

/-- A node that asks the next host, or pauses, is as it was. -/
theorem peers_askHost (halive : n.destroyed = false) (w : World) (run : Run) (index : ℕ) (join : Join)
    (gossip : Bool) : (w.askHost run index n join gossip).peers = w.peers := by
  rw [askHost]
  split
  · rfl
  · rw [if_neg (ne_true_of_eq_false halive)]
    obtain ⟨calls, errands, hsend⟩ := send_eq _ _ _ _ _ _ _ _ _ _
    rw [hsend]
    rfl

/-- Why a node gives up to join. -/
inductive GivesUp (n : Node) (join : Join) (now : ℕ) : NodeError → Prop
  | destroyed (h : n.destroyed = true) : GivesUp n join now .joinAborted
  | overdue (halive : n.destroyed = false) (h : join.isOverdue now = true) :
      GivesUp n join now (.joinDurationExceeded join.settings.maxJoinDuration)

/-- What becomes of a join: it goes on, and nobody has changed; it has failed, or it is complete. -/
inductive JoinsOn (w : World) (id index : ℕ) (n : Node) (join : Join) (gossip : Bool) : World → Prop
  | onward {w' : World} (h : w'.peers = w.peers) : JoinsOn w id index n join gossip w'
  | failed {e : NodeError} (h : GivesUp n join w.time e) :
      JoinsOn w id index n join gossip (w.failBootstrap id index n gossip e)
  | complete {joined : List (String × Snapshot)} (h : join.wanted ≤ joined.length) :
      JoinsOn w id index n join gossip (w.completeBootstrap id index n gossip joined)

/-- Taking an answer either completes the bootstrap or asks the next hosts. -/
theorem joinsOn_take (halive : n.destroyed = false) (host : String) (answer : Option JoinResponse) :
    JoinsOn w id index n join gossip
      (if (join.take host answer).isComplete then
        w.completeBootstrap id index n gossip (join.take host answer).joined
      else w.askHost run index n (join.take host answer) gossip) := by
  split
  · next hcomplete =>
    refine .complete ?_
    rw [← join.wanted_take host answer]
    exact of_decide_eq_true hcomplete
  · exact .onward (peers_askHost halive _ _ _ _ _)

/-- **Whatever a host answers**, or if it does not answer. -/
theorem joinsOn_takeAnswer (hrun : w.run? id = some run)
    (hactivity : run.activity = .bootstrap index join gossip) (hnode : w.nodeAt? index = some n)
    (host : String) (reply : Reply) :
    JoinsOn w id index n join gossip (w.takeAnswer id host reply) := by
  unfold takeAnswer
  rw [hrun]
  dsimp only
  rw [hactivity]
  dsimp only
  rw [hnode]
  dsimp only
  cases hdestroyed : n.destroyed with
  | true => exact .failed (.destroyed hdestroyed)
  | false =>
      rw [if_neg Bool.false_ne_true]
      split
      · next hlate => exact .failed (.overdue hdestroyed hlate)
      · exact joinsOn_take hdestroyed host _

/-- Going on after a pause, a run asks the next hosts or fails. -/
theorem joinsOn_resume (hrun : w.run? id = some run)
    (hactivity : run.activity = .bootstrap index join gossip) (hnode : w.nodeAt? index = some n) :
    JoinsOn w id index n join gossip (w.resume id) := by
  rw [resume, hrun]
  dsimp only
  rw [hactivity]
  dsimp only
  rw [hnode]
  dsimp only
  cases hdestroyed : n.destroyed with
  | true => exact .failed (.destroyed hdestroyed)
  | false =>
      rw [if_neg Bool.false_ne_true]
      split
      · next hlate => exact .failed (.overdue hdestroyed hlate)
      · exact .onward (peers_askHost hdestroyed _ _ _ _ _)

/-- **A bootstrap that is accepted** and has hosts to ask has changed its own node only, which has
    announced itself. -/
theorem peers_bootstrap {n' : Node} {hosts : List String} (hnode : w.nodeAt? index = some n)
    (hbegin : n.beginBootstrap w.moment = .done n' (.ok ()))
    (hjoin : n'.beginJoin w.moment hosts = some join) (gossip : Bool) :
    (w.bootstrap index hosts gossip).1.peers = w.peers.set index (.node n') := by
  rw [bootstrap, hnode]
  dsimp only
  rw [hbegin]
  dsimp only
  have hmoment : (w.putNode index n').moment = w.moment := rfl
  rw [hmoment, hjoin]
  exact peers_askHost (Node.alive_of_beginBootstrap hbegin) _ _ _ _ _

end World

namespace Process

open Network

/-- **What fails leaves the node as it was**, and so does a bootstrap but for the claim to be alive.

    Whatever is demanded of a node in any state, if it refuses, then for one of the known reasons, and it
    is the same node afterwards. On a network a request is refused when it arrives or not at all.

    A bootstrap that fails while joining has thrown a switch and thrown it back, and has made the node
    announce itself in between: nothing else was changed by it, and all that went on besides found the
    node so. The node is still by itself, it holds back what it held back before and what it was told
    meanwhile, and it is refused another bootstrap only if it has been destroyed.

    For this it does not matter what its hosts answer. Until a join fails or is complete no answer changes
    any peer, and one that fails throws the switch back and does no more. -/
theorem failures_spare_node {p : Process} (hp : p.Reached) :
    (∀ (n : Node) (now : Moment) (d : Demand) (n' : Node) (e : NodeError),
      d.meet now n = .done n' (.error e) ↔ n' = n ∧ Refuses n d e) ∧
    (∀ (n : Node) (w : World) (call : Call), w.nodeAt? call.peer = some n →
      (∀ e, Refuses n (.handle call.endpoint call.body) e →
        w.answer call n = w.next (.finish call.id (.refused e))) ∧
      ((∀ e, ¬Refuses n (.handle call.endpoint call.body) e) →
        (w.answer call n).refusals = w.refusals)) ∧
    (∀ (w : World) (index : ℕ) (request : PingReqRequest) (up : ℕ) (reply : Reply),
      (w.takeRelayed index request up reply).refusals = w.refusals) ∧
    (p.node.bootstrapped = false → ∀ (f : FailedCall) (q : Process), f.Apart p.node.address →
      p.run f.acts = .done q () →
        (∃ p₁ p₂ inc, f.Passes p p₁ p₂ q inc ∧
          p.node.OnlyAnnounced ((p.enter f.call).brought f.early)
            (((p₁.withNode (p₁.node.announced f.announced inc)).withStage f.call .joining).brought
              f.late)
            f.announced inc q.node) ∧
        (∀ e, Refuses q.node .bootstrap e ↔ q.node.destroyed = true ∧ e = .joinAborted) ∧
        ∀ (now : Moment) (inc : UInt64), q.node.destroyed = false →
          q.node.membership.freshIncarnation? now.wall = some inc →
          q.node.beginBootstrap now =
            .done (({ q.node with bootstrapped := true } : Node).announced now inc) (.ok ())) ∧
    (∀ (w : World) (index : ℕ) (n n' : Node) (hosts : List String) (join : Join) (gossip : Bool),
      w.nodeAt? index = some n → n.beginBootstrap w.moment = .done n' (.ok ()) →
        n'.beginJoin w.moment hosts = some join →
          (w.bootstrap index hosts gossip).1.peers = w.peers.set index (.node n')) ∧
    ∀ (w : World) (run : Run) (index : ℕ) (n : Node) (join : Join) (gossip : Bool),
      w.run? run.id = some run → run.activity = .bootstrap index join gossip →
        w.nodeAt? index = some n →
          (∀ host reply, w.JoinsOn run.id index n join gossip (w.takeAnswer run.id host reply)) ∧
          w.JoinsOn run.id index n join gossip (w.resume run.id) ∧
          ∀ e, (w.failBootstrap run.id index n gossip e).peers = w.peers.set index
            (.node (if gossip then n.failBootstrap else n.failBootstrap.stopGossip.1)) := by
  refine ⟨fun n now d n' e => Demand.meet_eq_error_iff, ?_, fun w => w.refusals_takeRelayed, ?_, ?_, ?_⟩
  · intro n w call hnode
    exact ⟨fun e => w.answer_of_refused hnode, fun hnone => World.refusals_answer hnone w⟩
  · intro hfree f q hapart hrun
    obtain ⟨p₁, p₂, inc, hpasses, hannounced⟩ := FailedCall.exists_passes hp hfree hapart hrun
    have hq := hp.run hrun
    obtain ⟨hclosed, -⟩ := hq.orderly.closed_of_free hannounced.bootstrapped
    obtain ⟨received, hisolated⟩ := hq.isolated hclosed
    refine ⟨⟨p₁, p₂, inc, hpasses, hannounced⟩, ?_, ?_⟩
    · exact fun e => Node.refuses_bootstrap_iff hannounced.bootstrapped
    · exact fun now inc' halive => hisolated.beginBootstrap_eq halive hannounced.bootstrapped
  · intro w index n n' hosts join gossip hnode hbegin hjoin
    exact World.peers_bootstrap hnode hbegin hjoin gossip
  · intro w run index n join gossip hrun hactivity hnode
    exact ⟨World.joinsOn_takeAnswer hrun hactivity hnode, World.joinsOn_resume hrun hactivity hnode,
      w.peers_failBootstrap run.id index n gossip⟩

/-- The node `a` refuses to leave before it is anywhere. It begins to bootstrap, hears from `b`, which asks
    to be taken in, announces itself and is told that `c` is suspect. Then the bootstrap fails, and the
    node begins another one. -/
theorem failures_spare_node_before_retry :
    ∃ node q inc, Node.createWith hash32 "a" { Settings.default with replicaPoints := 2 } .none =
        .ok node ∧
      (start node).Reached ∧
      Demand.leave.meet ⟨5, 0⟩ node = .done node (.error .missingLocalMember) ∧
      (start node).run
        [(⟨7, 0⟩, .enter 0), (⟨8, 1⟩, .move (.takeIn "b" 3)), (⟨9, 1⟩, .announce 0),
          (⟨10, 2⟩, .move (.absorb [⟨"c", .suspect, 4, "b", 3, 9⟩])), (⟨30, 5⟩, .fail 0)] =
        .done q () ∧
      0 < inc ∧ q.node.membership.rows = [⟨"a", .alive, inc⟩] ∧
      q.node.membership.gate =
        .closed [⟨"b", .alive, 3, "a", 0, 8⟩, ⟨"c", .suspect, 4, "b", 3, 9⟩] ∧
      ∃ n, q.node.beginBootstrap ⟨40, 6⟩ = .done n (.ok ()) ∧ n.membership.localIncarnation = 40 := by
  have hnode : Node.createWith hash32 "a" { Settings.default with replicaPoints := 2 } .none =
      .ok _ := rfl
  have hstart : Reached (start _) := ⟨hash32, "a", _, .none, _, [], hnode, rfl⟩
  obtain ⟨hrefuses, -, -, hfails, -⟩ := failures_spare_node hstart
  obtain ⟨⟨p₁, p₂, inc, hpasses, hannounced⟩, -, hagain⟩ := hfails rfl
    ⟨0, ⟨7, 0⟩, [(⟨8, 1⟩, .move (.takeIn "b" 3))], ⟨9, 1⟩,
      [(⟨10, 2⟩, .move (.absorb [⟨"c", .suspect, 4, "b", 3, 9⟩]))], ⟨30, 5⟩⟩ _
    (by simp [FailedCall.Apart, Act.Besides, Move.Besides])
    (Attempt.eq_done_of_result? (by decide +kernel))
  refine ⟨_, _, inc, hnode, hstart, ?_, Attempt.eq_done_of_result? (by decide +kernel),
    hannounced.newer, hannounced.rows.trans (if_neg (by decide)), by decide +kernel, _,
    hagain ⟨40, 6⟩ 40 ?_ ?_, ?_⟩
  · exact (hrefuses _ ⟨5, 0⟩ .leave _ .missingLocalMember).mpr ⟨rfl, .noRow (Or.inl rfl) rfl⟩
  · decide +kernel
  · decide +kernel
  · decide +kernel

end Process

end GossipRing
