import GossipRing.Proofs.Rebuttals

/-!
# How far a node's own incarnation can climb

Toward: no message stops a node. A node that is called down answers at an incarnation above its own,
so it must not have reached the largest one. Its own row takes whatever incarnation somebody else
claims it to be alive at, and every claim that it is down adds one to that.

* **`Change.Bids`**, **`Change.Accuses`** — what may raise the node's own incarnation to that of a
  claim, and what raises it by one or to the clock.
* **`applyAll_completes_iff`** — a batch stops at a claim that the node is down, if those before it
  leave the node at the largest incarnation.
* **`charge`** — how far the node has climbed, or still may by what it holds back. An operation adds to
  it the accusations that it brings (`Op.charged`), and so does a run (`run_charged`).
* **`Modest`** — runs with bids up to a bound and so many accusations at most. **`climb`** is the one
  that makes the most of them.
* **`headroom_iff`** — no modest run stops exactly if the bound and the number add up to an
  incarnation.
-/

namespace GossipRing

/-- The claim says that this node is alive, or by its own word that it leaves. -/
def Change.Bids (here : String) (c : Change) : Prop :=
  c.address = here ∧ (c.status = .alive ∨ c.status = .leave ∧ c.source = here)

/-- The claim calls this node down. -/
def Change.Accuses (here : String) (c : Change) : Prop := c.address = here ∧ c.status.IsDown

instance (here : String) (c : Change) : Decidable (c.Accuses here) :=
  inferInstanceAs (Decidable (_ ∧ _))

/-- How many of the claims call this node down. -/
def accusations (here : String) (claims : List Change) : Nat :=
  claims.countP fun c => decide (c.Accuses here)

theorem accusations_append (here : String) (first second : List Change) :
    accusations here (first ++ second) = accusations here first + accusations here second :=
  List.countP_append

theorem accusations_cons_of_accuses {here : String} {c : Change} (h : c.Accuses here)
    (rest : List Change) : accusations here (c :: rest) = accusations here rest + 1 :=
  List.countP_cons_of_pos (decide_eq_true h)

theorem accusations_cons_of_not {here : String} {c : Change} (h : ¬c.Accuses here)
    (rest : List Change) : accusations here (c :: rest) = accusations here rest :=
  List.countP_cons_of_neg (mt of_decide_eq_true h)

theorem accusations_replicate {here : String} {c : Change} (h : c.Accuses here) (times : Nat) :
    accusations here (List.replicate times c) = times := by
  rw [accusations, List.countP_replicate, if_pos (decide_eq_true h)]

theorem accusations_le_of_sublist {fewer claims : List Change} (here : String)
    (h : fewer.Sublist claims) : accusations here fewer ≤ accusations here claims := h.countP_le

/-- No claim bids more than this. -/
def BidsWithin (bound : UInt64) (here : String) (claims : List Change) : Prop :=
  ∀ c ∈ claims, c.Bids here → c.incarnation ≤ bound

/-- No reading of the clock is above the bound. -/
def Clock.Within (bound : UInt64) (c : Clock) : Prop :=
  ∀ reading ∈ c.reading :: c.later, reading ≤ bound

theorem Clock.Within.next {bound : UInt64} {c : Clock} (h : c.Within bound) : c.next.Within bound := by
  obtain ⟨reading, later⟩ := c
  cases later with
  | nil => exact h
  | cons reading' later => exact fun r hr => h r (List.mem_cons_of_mem _ hr)

namespace Membership

variable {now : Clock} {bound inc : UInt64} {m m' m₁ : Membership} {claims effects : List Change}
  {c : Change}

/-! ## Where a batch stops -/

theorem le_lastIncarnation (inc : UInt64) : inc ≤ lastIncarnation := by
  rw [UInt64.le_iff_toNat_le]
  exact Nat.le_of_lt_succ inc.toNat_lt

/-- **A batch is completed, unless the claims before some claim that the node is down leave the node at
    the largest incarnation.** -/
theorem applyAll_completes_iff :
    (∃ m' effects, applyAll now m claims = .done m' effects) ↔
      ¬∃ before c after m₁ first, claims = before ++ c :: after ∧
        applyAll now m before = .done m₁ first ∧ ¬c.isMalformed ∧ c.Accuses m.here ∧
        ∃ row, m₁.localRow? = some row ∧ row.incarnation = lastIncarnation := by
  constructor
  · rintro ⟨m', effects, hdone⟩ ⟨before, c, after, m₁, first, rfl, hbefore, hnamed, ⟨hlocal, hdown⟩,
      row, hrow, hlast⟩
    obtain ⟨m₂, first', hbefore', hanswer⟩ :=
      (applyAll_eq_done_iff.mp hdone).refutes hnamed hlocal hdown
    obtain ⟨rfl, -⟩ := Attempt.done.inj (hbefore.symm.trans hbefore')
    obtain ⟨inc, -, -, hlt, -⟩ := hanswer row hrow
    exact UInt64.not_lt.mpr (hlast ▸ le_lastIncarnation inc) hlt
  · intro hnone
    cases hout : applyAll now m claims with
    | done m' effects => exact ⟨m', effects, rfl⟩
    | exhausted m' =>
        obtain ⟨before, c, after, first, rfl, hbefore, hnamed, hrefutes, hlast⟩ :=
          applyAll_eq_exhausted hout
        refine absurd ⟨before, c, after, m', first, rfl, applyAll_eq_done_iff.mpr hbefore, hnamed,
          ?_, exists_localRow?_of_spent hlast⟩ hnone
        exact ⟨hrefutes.1.trans hbefore.here_eq, hrefutes.2.1⟩

/-- A batch completes exactly when all its claims do, as concluding it cannot stop. -/
theorem applyBatch_completes_iff :
    (∃ m' effects, applyBatch now m claims = .done m' effects) ↔
      ∃ m' effects, applyAll now m claims = .done m' effects := by
  constructor
  · rintro ⟨m', effects, hdone⟩
    obtain ⟨m₁, happlied, -⟩ := applyBatch_eq_done hdone
    exact ⟨m₁, effects, applyAll_eq_done_iff.mpr happlied⟩
  · rintro ⟨m', effects, hdone⟩
    exact ⟨_, effects, applyBatch_of_applied (applyAll_eq_done_iff.mp hdone)⟩

/-- There is a fresh incarnation, above the node's own, exactly below the largest one. -/
theorem exists_freshIncarnation?_iff (m : Membership) (now : Clock) :
    (∃ inc, m.freshIncarnation? now = some inc ∧ m.localIncarnation < inc) ↔
      m.localIncarnation ≠ lastIncarnation := by
  constructor
  · rintro ⟨inc, -, hlt⟩ hlast
    exact UInt64.not_lt.mpr (hlast ▸ le_lastIncarnation inc) hlt
  · intro hroom
    have hfresh : m.freshIncarnation? now = some (max now.reading (m.localIncarnation + 1)) :=
      if_neg hroom
    exact ⟨_, hfresh, lt_of_freshIncarnation? hfresh⟩

/-! ## What a batch adds -/

/-- A fresh incarnation is at most one above the node's own, or the clock. -/
theorem toNat_le_of_freshIncarnation? (h : m.freshIncarnation? now = some inc) :
    inc.toNat ≤ max now.reading.toNat (m.localIncarnation.toNat + 1) := by
  rw [freshIncarnation?] at h
  split at h
  · cases h
  · obtain rfl := Option.some.inj h
    have hsucc : (m.localIncarnation + 1).toNat ≤ m.localIncarnation.toNat + 1 := by
      rw [UInt64.toNat_add]
      exact Nat.mod_le _ _
    show (if _ then _ else _ : UInt64).toNat ≤ _
    split
    · exact hsucc.trans (Nat.le_max_right _ _)
    · exact Nat.le_max_left _ _

/-- Writing a row changes the local incarnation only if it is the local row. -/
theorem localIncarnation_put (m : Membership) (row : Member) :
    (m.put row).localIncarnation =
      if row.address = m.here then row.incarnation else m.localIncarnation := by
  by_cases hlocal : row.address = m.here
  · rw [if_pos hlocal, localIncarnation, localRow?_put, if_pos hlocal]
  · rw [if_neg hlocal, localIncarnation, localRow?_put, if_neg hlocal, localIncarnation]

/-- How far the node has climbed; below the bound it does not count. -/
def peak (bound : UInt64) (m : Membership) : Nat := max bound.toNat m.localIncarnation.toNat

/-- **A batch adds to the peak its accusations at most.** -/
theorem Applied.peak_le (h : Applied now m claims m' effects) (hclock : now.Within bound)
    (hbids : BidsWithin bound m.here claims) :
    peak bound m' ≤ peak bound m + accusations m.here claims := by
  induction h with
  | nil => exact Nat.le_add_right _ _
  | @ignore now m m' c rest effects _ _ ih =>
      have hrest := ih hclock.next fun d hd => hbids d (List.mem_cons_of_mem _ hd)
      have hcount := accusations_le_of_sublist m.here (List.sublist_cons_self c rest)
      omega
  | @accept now m m' c rest effects _ haccepts _ ih =>
      rw [here_put] at ih
      have hrest := ih hclock.next fun d hd => hbids d (List.mem_cons_of_mem _ hd)
      have hcount := accusations_le_of_sublist m.here (List.sublist_cons_self c rest)
      -- what is accepted about the local member is a bid, which the bound covers
      have hput : peak bound (m.put c.toMember) ≤ peak bound m := by
        rw [peak, localIncarnation_put]
        split
        · next hlocal =>
          have hbid := hbids c List.mem_cons_self ⟨hlocal, haccepts.sparesLocal hlocal⟩
          exact Nat.max_le.mpr ⟨Nat.le_max_left _ _,
            (UInt64.le_iff_toNat_le.mp hbid).trans (Nat.le_max_left _ _)⟩
        · exact Nat.le_refl _
      omega
  -- a refutation is the answer to an accusation and may go one above the peak
  | @refute now m m' c rest effects inc _ hrefutes hfresh _ ih =>
      rw [here_put] at ih
      have hrest := ih hclock.next fun d hd => hbids d (List.mem_cons_of_mem _ hd)
      have hcount := accusations_cons_of_accuses ⟨hrefutes.1, hrefutes.2.1⟩ rest
      have hput : peak bound (m.put (m.refutation inc now).toMember) ≤ peak bound m + 1 := by
        have hinc := toNat_le_of_freshIncarnation? hfresh
        have hnow := UInt64.le_iff_toNat_le.mp (hclock _ List.mem_cons_self)
        have hlocal : (m.refutation inc now).toMember.address = m.here := rfl
        rw [peak, peak, localIncarnation_put, if_pos hlocal]
        show max bound.toNat inc.toNat ≤ _
        omega
      omega

/-- A batch is completed if its accusations leave it below the largest incarnation. -/
theorem exists_applied_of_room (hclock : now.Within bound) (hbids : BidsWithin bound m.here claims)
    (hroom : peak bound m + accusations m.here claims ≤ lastIncarnation.toNat) :
    ∃ m' effects, Applied now m claims m' effects := by
  cases hout : applyAll now m claims with
  | done m' effects => exact ⟨m', effects, applyAll_eq_done_iff.mp hout⟩
  | exhausted m' =>
      obtain ⟨before, c, after, first, rfl, hbefore, -, hrefutes, hlast⟩ := applyAll_eq_exhausted hout
      -- the accusation that it stopped at is one more than those that it was raised by
      have hpeak := hbefore.peak_le hclock fun d hd => hbids d (List.mem_append_left _ hd)
      have haccused : c.Accuses m.here := ⟨hrefutes.1.trans hbefore.here_eq, hrefutes.2.1⟩
      rw [accusations_append, accusations_cons_of_accuses haccused] at hroom
      have hspent : lastIncarnation.toNat ≤ peak bound m' := by
        rw [peak, hlast]
        exact Nat.le_max_right _ _
      omega

/-! ## What an operation adds -/

/-- How far the node has climbed, or still may by what it holds back. -/
def charge (bound : UInt64) (m : Membership) : Nat :=
  peak bound m + accusations m.here m.gate.stash

/-- The bids that are held back stay within the bound, and the node is charged no more than this. -/
structure Charged (bound : UInt64) (limit : Nat) (m : Membership) : Prop where
  held : BidsWithin bound m.here m.gate.stash
  within : charge bound m ≤ limit

/-- The claims about this address that an operation brings. What a snapshot says of the node itself is
    left out when it is adopted. -/
def Op.brings (here : String) : Op → List Change
  | update claims _ => claims
  | assert address status inc => [⟨address, status, inc, here, 0, 0⟩]
  | adopt _ => []
  | openGate => []

/-- An update raises the charge by the accusations in it at most, whether it applies them or holds
    them back. -/
theorem update_charged (localAlive : Bool) (hclock : now.Within bound)
    (hbids : BidsWithin bound m.here claims) (hheld : BidsWithin bound m.here m.gate.stash)
    (hroom : charge bound m + accusations m.here claims ≤ lastIncarnation.toNat) :
    ∃ m' effects, m.update now claims localAlive = .done m' effects ∧
      Charged bound (charge bound m + accusations m.here claims) m' := by
  rw [update]
  split
  · -- the claims are applied: none of them waits any longer
    have hspare : peak bound m + accusations m.here claims ≤ lastIncarnation.toNat := by
      rw [charge] at hroom
      omega
    obtain ⟨m₁, effects, happlied⟩ := exists_applied_of_room hclock hbids hspare
    have hpeak := happlied.peak_le hclock hbids
    refine ⟨_, effects, applyBatch_of_applied happlied, ?_, ?_⟩
    · rw [gate_conclude, happlied.gate_eq, (alike_conclude _ _).here, happlied.here_eq]
      exact hheld
    · have hsame : peak bound (m₁.conclude effects) = peak bound m₁ := by
        rw [peak, peak, (alike_conclude m₁ effects).localIncarnation]
      rw [charge, charge, gate_conclude, happlied.gate_eq, (alike_conclude _ _).here,
        happlied.here_eq, hsame]
      omega
  · refine ⟨_, _, rfl, ?_, ?_⟩
    · intro c hc
      rcases mem_stash_holdBack hc with hold | hnew
      · exact hheld c hold
      · exact hbids c hnew
    · have hnew := accusations_le_of_sublist m.here
        (claims.filter_sublist (p := fun c => !c.isMalformed))
      show peak bound m + accusations m.here (m.gate.stash ++ _) ≤ _
      rw [accusations_append, charge]
      omega

/-- **An operation is completed if there is room for its accusations, and adds them at most.** -/
theorem Op.charged (op : Op) (hclock : now.Within bound)
    (hbids : BidsWithin bound m.here (op.brings m.here))
    (hheld : BidsWithin bound m.here m.gate.stash)
    (hroom : charge bound m + accusations m.here (op.brings m.here) ≤ lastIncarnation.toNat) :
    ∃ m' effects, op.apply now m = .done m' effects ∧
      Charged bound (charge bound m + accusations m.here (op.brings m.here)) m' := by
  cases op with
  | update claims localAlive => exact update_charged _ hclock hbids hheld hroom
  | assert address status inc =>
      have hbids : BidsWithin bound m.here [m.ownClaim now address status inc] := by
        intro c hc
        obtain rfl := List.mem_singleton.mp hc
        exact hbids ⟨address, status, inc, m.here, 0, 0⟩ (List.mem_singleton_self _)
      exact update_charged _ hclock hbids hheld hroom
  | adopt snapshots =>
      have hfewer := m.stash_adopt_sublist snapshots
      refine ⟨_, _, rfl, ?_, ?_⟩
      · rw [here_adopt]
        exact fun c hc => hheld c (hfewer.subset hc)
      · have hcount := accusations_le_of_sublist m.here hfewer
        have hsame : peak bound (m.adopt snapshots).1 = peak bound m := by
          rw [peak, peak, localIncarnation, localIncarnation, localRow?_adopt]
        rw [charge, charge, here_adopt, hsame]
        omega
  | openGate =>
      -- what was held back is what the open gate is charged for
      have hopened := update_charged (m := { m with gate := .opened }) false hclock hheld
        (fun _ hc => absurd hc List.not_mem_nil) hroom
      show ∃ m' effects, m.openGate now = .done m' effects ∧ _
      rw [openGate_eq_update]
      exact hopened

/-! ## What a run adds -/

/-- All claims that the operations of a run bring, and these are about everybody. -/
def brought (here : String) (ops : List (Clock × Op)) : List Change :=
  ops.flatMap fun entry => entry.2.brings here

/-- The clock and all bids for this address stay within the bound, and it is accused no more often. -/
structure Modest (here : String) (bound : UInt64) (limit : Nat) (ops : List (Clock × Op)) : Prop where
  clock : ∀ entry ∈ ops, entry.1.Within bound
  bids : BidsWithin bound here (brought here ops)
  accused : accusations here (brought here ops) ≤ limit

/-- **A run is completed if there is room for its accusations**, and the node climbs no higher. -/
theorem run_charged {ops : List (Clock × Op)} (hclock : ∀ entry ∈ ops, entry.1.Within bound)
    (hbids : BidsWithin bound m.here (brought m.here ops))
    (hheld : BidsWithin bound m.here m.gate.stash)
    (hroom : charge bound m + accusations m.here (brought m.here ops) ≤ lastIncarnation.toNat) :
    ∃ m', m.run ops = .done m' () ∧
      m'.localIncarnation.toNat ≤ charge bound m + accusations m.here (brought m.here ops) := by
  induction ops generalizing m with
  | nil =>
      refine ⟨m, rfl, ?_⟩
      have hpeak : m.localIncarnation.toNat ≤ peak bound m := Nat.le_max_right _ _
      rw [charge]
      omega
  | cons entry rest ih =>
      obtain ⟨now, op⟩ := entry
      have hbrought : brought m.here ((now, op) :: rest) = op.brings m.here ++ brought m.here rest :=
        List.flatMap_cons
      rw [hbrought] at hbids hroom ⊢
      rw [accusations_append] at hroom ⊢
      obtain ⟨m₁, effects, happly, hheld₁, hwithin⟩ := op.charged
        (hclock _ List.mem_cons_self) (fun c hc => hbids c (List.mem_append_left _ hc)) hheld
        (by omega)
      -- the address never changes, so the accusations of the rest are counted as before
      have hhere : m₁.here = m.here := op.here_eq happly
      rw [← hhere] at hbids hroom
      obtain ⟨m', hrun, hclimbed⟩ := ih (fun e he => hclock e (List.mem_cons_of_mem _ he))
        (fun c hc => hbids c (List.mem_append_right _ hc)) hheld₁ (by rw [hhere] at hroom ⊢; omega)
      refine ⟨m', ?_, ?_⟩
      · rw [run, happly, Attempt.andThen_done, hrun]
      · rw [hhere] at hclimbed
        omega

/-- An empty table is charged with the bound. -/
theorem charge_empty (bound : UInt64) (here : String) (hash : HashFunction) (chance : Chance) :
    charge bound (empty here hash chance) = bound.toNat :=
  Nat.max_eq_left (Nat.zero_le _)

/-- A modest run from the empty table completes, if the accusations fit between the bound and the last
    incarnation. -/
theorem Modest.run {here : String} {limit : Nat} {ops : List (Clock × Op)}
    (h : Modest here bound limit ops) (hroom : bound.toNat + limit ≤ lastIncarnation.toNat)
    (hash : HashFunction) (chance : Chance) :
    ∃ m, (empty here hash chance).run ops = .done m () ∧
      m.localIncarnation.toNat ≤ bound.toNat + limit := by
  have haccused : accusations here (brought here ops) ≤ limit := h.accused
  have hcharge := charge_empty bound here hash chance
  obtain ⟨m, hrun, hclimbed⟩ := run_charged (m := empty here hash chance) h.clock h.bids
    (fun c hc => absurd hc List.not_mem_nil)
    (by rw [hcharge]; exact le_trans (Nat.add_le_add_left haccused _) hroom)
  refine ⟨m, hrun, hclimbed.trans ?_⟩
  rw [hcharge]
  exact Nat.add_le_add_left haccused _

/-! ## The run that climbs highest -/

/-- Somebody says that this node is suspect. -/
def accusation (here : String) : Change := ⟨here, .suspect, 0, "", 0, 0⟩

/-- The node starts as high as it may, and then is accused as often as it may be. The clock stands
    still. -/
def climb (here : String) (bound : UInt64) (times : Nat) : List (Clock × Op) :=
  [.assert here .alive bound, .openGate,
    .update (List.replicate times (accusation here)) false].map fun op => (0, op)

theorem accuses_accusation (here : String) : (accusation here).Accuses here := ⟨rfl, Or.inl rfl⟩

theorem accusation_named {here : String} (hnamed : here ≠ "") : ¬(accusation here).isMalformed :=
  fun hempty => hnamed (String.isEmpty_iff.mp hempty)

/-- One claim at the bound and the accusations after it make a modest run. -/
theorem modest_climb (here : String) (bound : UInt64) {times limit : Nat} (h : times ≤ limit) :
    Modest here bound limit (climb here bound times) := by
  have hbrought : brought here (climb here bound times) =
      ⟨here, .alive, bound, here, 0, 0⟩ :: List.replicate times (accusation here) := by
    show _ :: ([] ++ (List.replicate times (accusation here) ++ [])) = _
    rw [List.append_nil, List.nil_append]
  have hbid : ¬Change.Accuses here ⟨here, .alive, bound, here, 0, 0⟩ :=
    fun haccuses => absurd (show Status.alive.IsDown from haccuses.2) (by decide)
  refine ⟨?_, ?_, ?_⟩
  · intro entry hentry
    obtain ⟨op, -, rfl⟩ := List.mem_map.mp hentry
    intro reading hreading
    obtain rfl := List.mem_singleton.mp hreading
    exact UInt64.zero_le
  · rw [hbrought]
    intro c hc _
    rcases List.mem_cons.mp hc with rfl | hc
    · exact UInt64.le_refl _
    · obtain rfl := List.eq_of_mem_replicate hc
      exact UInt64.zero_le
  · rw [hbrought, accusations_cons_of_not hbid, accusations_replicate (accuses_accusation here)]
    exact h

/-- With the clock at zero a rebuttal is one above the own incarnation, up to the last. -/
theorem toNat_rebuttalIncarnation (h : inc ≠ lastIncarnation) :
    (rebuttalIncarnation 0 inc).toNat = inc.toNat + 1 := by
  have hlt : inc.toNat < lastIncarnation.toNat :=
    UInt64.lt_iff_toNat_lt.mp (UInt64.lt_of_le_of_ne (le_lastIncarnation inc) h)
  have hmax : rebuttalIncarnation 0 inc = inc + 1 := by
    show (if 0 ≤ inc + 1 then inc + 1 else 0) = _
    exact if_pos UInt64.zero_le
  have hlast : lastIncarnation.toNat = 2 ^ 64 - 1 := rfl
  rw [hmax, UInt64.toNat_add]
  exact Nat.mod_eq_of_lt (by show inc.toNat + 1 < 2 ^ 64; omega)

/-- Every accusation takes the node one step up, if the clock is behind. -/
theorem climbs {row : Member} {times : Nat} (hnamed : m.here ≠ "") (hrow : m.localRow? = some row)
    (hroom : row.incarnation.toNat + times ≤ lastIncarnation.toNat) :
    ∃ m' effects, Applied 0 m (List.replicate times (accusation m.here)) m' effects ∧
      ∃ own, m'.localRow? = some own ∧ own.incarnation.toNat = row.incarnation.toNat + times := by
  induction times with
  | zero => exact ⟨m, [], .nil, row, hrow, rfl⟩
  | succ times ih =>
      obtain ⟨m₁, first, hbefore, own, hown, hinc⟩ := ih (by omega)
      have hlast : own.incarnation ≠ lastIncarnation := by
        rintro hlast
        rw [hlast] at hinc
        omega
      obtain ⟨m₂, happlied, hrow₂⟩ := applied_refuted hbefore (accusation_named hnamed) rfl
        (accuses_accusation m.here).2 hown hlast
      rw [List.replicate_succ']
      refine ⟨m₂, _, happlied, _, hrow₂, ?_⟩
      show (rebuttalIncarnation (Clock.after (.still 0) _) own.incarnation).toNat = _
      rw [Clock.after_still]
      show (rebuttalIncarnation 0 own.incarnation).toNat = _
      rw [toNat_rebuttalIncarnation hlast, hinc, Nat.add_assoc]

/-- A node that begins alone is ready at the incarnation that it chose. -/
theorem run_alone {here : String} (hnamed : here ≠ "") (hash : HashFunction) (chance : Chance)
    (bound : UInt64) :
    ∃ m, (empty here hash chance).run [(0, .assert here .alive bound), (0, .openGate)] = .done m () ∧
      m.isReady ∧ m.here = here ∧ m.localRow? = some ⟨here, .alive, bound⟩ := by
  have happlied : Applied 0 (empty here hash chance)
      [(empty here hash chance).ownClaim 0 here .alive bound] _ _ :=
    .accept (fun hempty => hnamed (String.isEmpty_iff.mp hempty))
      ((accepts_iff_of_none rfl).mpr fun _ => rfl) .nil
  have hassert : (Op.assert here .alive bound).apply 0 (empty here hash chance) =
      .done (((empty here hash chance).put ⟨here, .alive, bound⟩).conclude _) _ :=
    (assert_here_eq_applyBatch (empty here hash chance) 0 bound).trans
      (applyBatch_of_applied happlied)
  have hrow : ((empty here hash chance).put ⟨here, .alive, bound⟩).localRow? =
      some ⟨here, .alive, bound⟩ := by
    rw [localRow?_put]
    exact if_pos rfl
  refine ⟨{ ((empty here hash chance).put ⟨here, .alive, bound⟩).conclude
    [(empty here hash chance).ownClaim 0 here .alive bound] with gate := .opened }, ?_, rfl, rfl, hrow⟩
  rw [run, hassert, Attempt.andThen_done]
  rfl

/-- **A climb that has room for all accusations ends that far up, and any other stops.** -/
theorem run_climb {here : String} (hnamed : here ≠ "") (hash : HashFunction) (chance : Chance)
    (bound : UInt64) (times : Nat) :
    (bound.toNat + times ≤ lastIncarnation.toNat →
      ∃ m, (empty here hash chance).run (climb here bound times) = .done m () ∧
        m.localIncarnation.toNat = bound.toNat + times) ∧
    (lastIncarnation.toNat < bound.toNat + times →
      ¬∃ m, (empty here hash chance).run (climb here bound times) = .done m ()) := by
  obtain ⟨m, hrun, hready, rfl, hrow⟩ := run_alone hnamed hash chance bound
  have hclimb : (empty m.here hash chance).run (climb m.here bound times) =
      (m.update 0 (List.replicate times (accusation m.here)) false).andThen fun m _ => .done m () := by
    show (empty m.here hash chance).run ([_, _] ++ [_]) = _
    rw [run_append, hrun]
    rfl
  rw [hclimb]
  constructor
  · intro hroom
    obtain ⟨m₁, effects, happlied, own, hown, hinc⟩ := climbs hnamed hrow hroom
    refine ⟨_, by rw [update_of_applied hready false happlied, Attempt.andThen_done], ?_⟩
    rw [(alike_conclude m₁ effects).localIncarnation, localIncarnation_of_localRow? hown, hinc]
  · rintro hstop ⟨m', hdone⟩
    obtain ⟨m₁, effects, hupdate, -⟩ := Attempt.andThen_eq_done hdone
    rw [update, hready, Bool.true_or, if_pos rfl] at hupdate
    -- so many accusations take the node to the largest incarnation, and one more is left
    have hbound := UInt64.le_iff_toNat_le.mp (le_lastIncarnation bound)
    obtain ⟨k, rfl⟩ : ∃ k, times = (lastIncarnation.toNat - bound.toNat) + (k + 1) :=
      ⟨times - (lastIncarnation.toNat - bound.toNat) - 1, by omega⟩
    have hroom : bound.toNat + (lastIncarnation.toNat - bound.toNat) ≤ lastIncarnation.toNat := by
      omega
    obtain ⟨m₂, first, happlied, own, hown, hinc⟩ := climbs hnamed hrow hroom
    refine applyAll_completes_iff.mp (applyBatch_completes_iff.mp ⟨m₁, effects, hupdate⟩)
      ⟨_, accusation m.here, List.replicate k (accusation m.here), m₂, first, ?_,
        applyAll_eq_done_iff.mpr happlied, accusation_named hnamed, accuses_accusation m.here, own,
        hown, ?_⟩
    · rw [List.replicate_add, List.replicate_succ]
    · refine UInt64.toNat_inj.mp (hinc.trans ?_)
      show bound.toNat + _ = _
      omega

/-! ## Room -/

/-- **Exactly so much a node can bear.**

    A ready table completes a batch unless the claims before some claim that the node is down leave its
    own row at the largest incarnation, and only there no fresh incarnation is above its own. Take a
    bound for the clock and for the incarnations at which the node is said to be alive, or says itself
    that it leaves, and a number of claims that it is down. From an empty table of the node all runs
    within these are completed exactly if the bound and the number add up to an incarnation, and leave
    the node below the largest one exactly if they add up to less. -/
theorem headroom_iff (m : Membership) (bound : UInt64) (limit : Nat) :
    (m.isReady → ∀ now claims localAlive,
      (∃ m' effects, m.update now claims localAlive = .done m' effects) ↔
        ¬∃ before c after m₁ first, claims = before ++ c :: after ∧
          applyAll now m before = .done m₁ first ∧ ¬c.isMalformed ∧ c.Accuses m.here ∧
          ∃ row, m₁.localRow? = some row ∧ row.incarnation = lastIncarnation) ∧
    (∀ now, (∃ inc, m.freshIncarnation? now = some inc ∧ m.localIncarnation < inc) ↔
      m.localIncarnation ≠ lastIncarnation) ∧
    (m.here ≠ "" →
      ((∀ hash chance ops, Modest m.here bound limit ops →
          ∃ m', (empty m.here hash chance).run ops = .done m' ()) ↔
        bound.toNat + limit ≤ lastIncarnation.toNat) ∧
      ((∀ hash chance ops m', Modest m.here bound limit ops →
          (empty m.here hash chance).run ops = .done m' () →
          m'.localIncarnation ≠ lastIncarnation) ↔
        bound.toNat + limit < lastIncarnation.toNat)) := by
  refine ⟨?_, exists_freshIncarnation?_iff m, fun hnamed => ⟨⟨?_, ?_⟩, ?_, ?_⟩⟩
  · intro hready now claims localAlive
    rw [← applyAll_completes_iff, ← applyBatch_completes_iff, update, hready, Bool.true_or,
      if_pos rfl]
  · -- a climb to the bound and one accusation more than there is room for would stop
    intro hcomplete
    by_contra hmore
    exact (run_climb hnamed hash32 .none bound limit).2 (by omega)
      (hcomplete hash32 .none _ (modest_climb m.here bound (Nat.le_refl limit)))
  · intro hroom hash chance ops hmodest
    obtain ⟨m', hrun, -⟩ := hmodest.run hroom hash chance
    exact ⟨m', hrun⟩
  · intro hbelow
    by_contra hmore
    have hbound := UInt64.le_iff_toNat_le.mp (le_lastIncarnation bound)
    obtain ⟨m', hrun, hinc⟩ := (run_climb hnamed hash32 .none bound
      (lastIncarnation.toNat - bound.toNat)).1 (by omega)
    refine hbelow hash32 .none _ m' (modest_climb m.here bound (by omega)) hrun ?_
    exact UInt64.toNat_inj.mp (by omega)
  · intro hroom hash chance ops m' hmodest hrun hlast
    obtain ⟨m₁, hrun', hinc⟩ := hmodest.run (by omega) hash chance
    obtain ⟨rfl, -⟩ := Attempt.done.inj (hrun'.symm.trans hrun)
    rw [hlast] at hinc
    omega

/-- Somebody says that `a` is alive one below the largest incarnation, and that it is suspect. It
    answers at the largest one. It could bear that once, and not twice. -/
theorem headroom_iff_one_below_last :
    ∃ m m', (empty "a" hash32 .none).run [(3, .assert "a" .alive 3), (3, .openGate)] = .done m () ∧
      m.isReady ∧
      m.update 4 [⟨"a", .alive, 0xFFFFFFFFFFFFFFFE, "b", 1, 4⟩, ⟨"a", .suspect, 5, "b", 1, 4⟩] false =
        .done m' [⟨"a", .alive, 0xFFFFFFFFFFFFFFFE, "b", 1, 4⟩,
          ⟨"a", .alive, lastIncarnation, "a", lastIncarnation, 4⟩] ∧
      (¬∃ before c after m₁ first,
        [⟨"a", .alive, 0xFFFFFFFFFFFFFFFE, "b", 1, 4⟩, ⟨"a", .suspect, 5, "b", 1, 4⟩] =
            before ++ c :: after ∧
          applyAll 4 m before = .done m₁ first ∧ ¬c.isMalformed ∧ c.Accuses m.here ∧
          ∃ row, m₁.localRow? = some row ∧ row.incarnation = lastIncarnation) ∧
      (∀ hash chance ops, Modest "a" 0xFFFFFFFFFFFFFFFE 1 ops →
        ∃ m, (empty "a" hash chance).run ops = .done m ()) ∧
      ¬∀ hash chance ops, Modest "a" 0xFFFFFFFFFFFFFFFE 2 ops →
        ∃ m, (empty "a" hash chance).run ops = .done m () := by
  obtain ⟨m, m', hrun, hready, hhere, hupdate⟩ : ∃ m m',
      (empty "a" hash32 .none).run [(3, .assert "a" .alive 3), (3, .openGate)] = .done m () ∧
      m.isReady ∧ m.here = "a" ∧
      m.update 4 [⟨"a", .alive, 0xFFFFFFFFFFFFFFFE, "b", 1, 4⟩, ⟨"a", .suspect, 5, "b", 1, 4⟩] false =
        .done m' [⟨"a", .alive, 0xFFFFFFFFFFFFFFFE, "b", 1, 4⟩,
          ⟨"a", .alive, lastIncarnation, "a", lastIncarnation, 4⟩] := by
    refine ⟨_, _, Attempt.eq_done_of_result? ?_, ?_, ?_, Attempt.eq_done_of_result? ?_⟩
    all_goals decide +kernel
  obtain ⟨hcompletes, -, honce⟩ := headroom_iff m 0xFFFFFFFFFFFFFFFE 1
  obtain ⟨-, -, htwice⟩ := headroom_iff m 0xFFFFFFFFFFFFFFFE 2
  rw [hhere] at honce htwice
  refine ⟨m, m', hrun, hready, hupdate, (hcompletes hready 4 _ false).mp ⟨m', _, hupdate⟩,
    (honce (by decide)).1.mpr (by decide), fun hcomplete => ?_⟩
  exact absurd ((htwice (by decide)).1.mp hcomplete) (by decide)

/-- Somebody says that the node is alive at the largest incarnation, which it believes, and in the
    same batch that it is suspect. The batch stops. After the first claim alone there is no fresh
    incarnation, whatever the clock says. -/
theorem foreign_claim_leaves_no_answer :
    ∃ m m', (empty "10.0.0.1:3000" hash32 .none).run
        [(1700000000000, .assert "10.0.0.1:3000" .alive 1), (1700000000000, .openGate)] =
        .done m () ∧
      m.isReady ∧
      (m.update 1700000000000
        [⟨"10.0.0.1:3000", .alive, 18446744073709551615, "10.0.0.2:3000", 1, 0⟩,
          ⟨"10.0.0.1:3000", .suspect, 18446744073709551615, "10.0.0.2:3000", 1, 0⟩] false).result? =
        none ∧
      m.update 1700000000000
        [⟨"10.0.0.1:3000", .alive, 18446744073709551615, "10.0.0.2:3000", 1, 0⟩] false =
        .done m' [⟨"10.0.0.1:3000", .alive, 18446744073709551615, "10.0.0.2:3000", 1, 0⟩] ∧
      ∀ now, m'.freshIncarnation? now = none := by
  refine ⟨_, _, Attempt.eq_done_of_result? ?_, ?_, ?_, Attempt.eq_done_of_result? ?_,
    fun _ => if_pos ?_⟩
  all_goals decide +kernel

end Membership

end GossipRing
