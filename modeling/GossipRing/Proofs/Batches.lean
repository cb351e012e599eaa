import GossipRing.Proofs.ClaimOrder
import GossipRing.Proofs.TableReports

/-!
# What becomes of a batch of claims

Toward: what a run of operations can do to a table. A claim is ignored, accepted as it is, or
refuted, and all that is said about batches follows from these three.

* **`Accepts`**, **`Refutes`**, **`Ignores`** — the three, read off the rows, and what `apply` does
  in each of them.
* **`Applied`** — a batch that was completed, claim by claim. `applyAll_eq_done_iff`: it is what
  `applyAll` computes.
* **`Applied.eq_putAll`**, **`Applied.owns`**, **`Applied.origin`** — what the batch leaves: the
  effects recorded in order, a node's own incarnation no smaller, and effects that were claimed or
  are refutations.
* **`Applied.row?_eq`** — the row of another member is decided by the claims about it alone.
* **`exists_applied`** — a batch with at most one claim about this node is completed, unless that one
  is refuted at the largest incarnation (`Applied.room`). **`applyAll_eq_exhausted`** — where a batch
  stops.
-/

namespace GossipRing

/-- The status of a member that is said to be down. -/
def Status.IsDown (s : Status) : Prop := s = .suspect ∨ s = .faulty ∨ s = .tombstone

instance (s : Status) : Decidable s.IsDown := inferInstanceAs (Decidable (_ ∨ _ ∨ _))

namespace Membership

/-! ## One claim -/

/-- If the claim is about this node, it says that it is alive, or by its own word that it leaves. -/
def SparesLocal (m : Membership) (c : Change) : Prop :=
  c.address = m.here → c.status = .alive ∨ c.status = .leave ∧ c.source = m.here

/-- The claim takes effect as it is. -/
def Accepts (m : Membership) (c : Change) : Prop :=
  match m.row? c.address with
  | none => c.address = m.here → c.status = .alive
  | some row => Precedence.overrides row c ∧ m.SparesLocal c

/-- The claim calls this node down, which knows itself. -/
def Refutes (m : Membership) (c : Change) : Prop :=
  c.address = m.here ∧ c.status.IsDown ∧ (m.localRow?).isSome

/-- The claim is about nobody, or is neither accepted nor refuted. -/
def Ignores (m : Membership) (c : Change) : Prop :=
  c.isMalformed ∨ ¬m.Accepts c ∧ ¬m.Refutes c

section

variable {m : Membership} {c : Change}

/-- Of somebody without a row every claim is accepted, unless it speaks ill of the node itself. -/
theorem accepts_iff_of_none (hrow : m.row? c.address = none) :
    m.Accepts c ↔ (c.address = m.here → c.status = .alive) := by
  rw [Accepts, hrow]

/-- Of somebody with a row a claim is accepted by precedence, unless it speaks ill of the node itself. -/
theorem accepts_iff_of_some {row : Member} (hrow : m.row? c.address = some row) :
    m.Accepts c ↔ Precedence.overrides row c ∧ m.SparesLocal c := by
  rw [Accepts, hrow]

/-- What is accepted never speaks ill of the node. -/
theorem Accepts.sparesLocal (h : m.Accepts c) : m.SparesLocal c := by
  cases hrow : m.row? c.address with
  | none => exact fun hlocal => Or.inl ((accepts_iff_of_none hrow).mp h hlocal)
  | some row => exact ((accepts_iff_of_some hrow).mp h).2

theorem not_refutes_of_remote (h : c.address ≠ m.here) : ¬m.Refutes c := fun hr => h hr.1

/-- The three questions whether a node is called down are one. -/
theorem callsLocalDown_iff {row : Member} (hrow : m.row? c.address = some row) :
    Precedence.callsLocalDown m.here row c ↔ c.address = m.here ∧ c.status.IsDown := by
  have haddress : row.address = c.address := (mem_of_row?_eq_some hrow).2
  simp only [Precedence.callsLocalDown, Precedence.callsLocalSuspect, Precedence.callsLocalFaulty,
    Precedence.callsLocalTombstone, Status.IsDown, haddress, Bool.or_eq_true, Bool.and_eq_true,
    decide_eq_true_eq]
  tauto

/-- Nobody but the node itself makes it leave. -/
theorem isForeignLeave_iff {row : Member} (hrow : m.row? c.address = some row) :
    Precedence.isForeignLeave m.here row c ↔
      c.address = m.here ∧ c.status = .leave ∧ c.source ≠ m.here := by
  have haddress : row.address = c.address := (mem_of_row?_eq_some hrow).2
  simp only [Precedence.isForeignLeave, haddress, Bool.and_eq_true, decide_eq_true_eq, and_assoc]

/-- Where the node has a row, calling it down is all that a refutation needs. -/
theorem refutes_iff_of_some {row : Member} (hrow : m.row? c.address = some row) :
    m.Refutes c ↔ c.address = m.here ∧ c.status.IsDown := by
  constructor
  · exact fun h => ⟨h.1, h.2.1⟩
  · rintro ⟨hlocal, hdown⟩
    refine ⟨hlocal, hdown, ?_⟩
    rw [localRow?, ← hlocal, hrow]
    rfl

/-- A claim that the node is down is answered, if an incarnation is left to answer at. -/
theorem apply_of_refutes (now : Clock) (h : m.Refutes c) :
    apply now m c =
      match m.freshIncarnation? now with
      | none => .exhausted m
      | some inc => .done (m.put (m.refutation inc now).toMember) (some (m.refutation inc now)) := by
  obtain ⟨hlocal, hdown, hknown⟩ := h
  obtain ⟨row, hrow⟩ : ∃ row, m.row? c.address = some row := by
    rw [hlocal]
    exact Option.isSome_iff_exists.mp hknown
  -- a claim that the node is down does not say that it leaves, so the first test does not hold it up
  have hleave : ¬Precedence.isForeignLeave m.here row c := by
    rw [isForeignLeave_iff hrow]
    rintro ⟨-, hleave, -⟩
    rw [hleave] at hdown
    exact absurd hdown (by decide)
  rw [apply, hrow]
  dsimp only
  refine (if_neg hleave).trans ((if_pos ((callsLocalDown_iff hrow).mpr ⟨hlocal, hdown⟩)).trans ?_)
  cases m.freshIncarnation? now <;> rfl

/-- A claim that is accepted is recorded as it is. -/
theorem apply_of_accepts (now : Clock) (h : m.Accepts c) :
    apply now m c = .done (m.put c.toMember) (some c) := by
  cases hrow : m.row? c.address with
  | none =>
      rw [apply, hrow]
      dsimp only
      refine if_neg ?_
      rintro ⟨hlocal, hstatus⟩
      exact hstatus ((accepts_iff_of_none hrow).mp h hlocal)
  | some row =>
      obtain ⟨hover, hstatus⟩ := (accepts_iff_of_some hrow).mp h
      -- a claim about the node that is accepted passes both tests that protect its row
      have hleave : ¬Precedence.isForeignLeave m.here row c := by
        rw [isForeignLeave_iff hrow]
        rintro ⟨hlocal, hleave, hforeign⟩
        rcases hstatus hlocal with halive | ⟨-, hown⟩
        · exact absurd (halive.symm.trans hleave) (by decide)
        · exact hforeign hown
      have hdown : ¬Precedence.callsLocalDown m.here row c := by
        rw [callsLocalDown_iff hrow]
        rintro ⟨hlocal, hdown⟩
        rcases hstatus hlocal with halive | ⟨hleft, -⟩
        · exact absurd (halive ▸ hdown) (by decide)
        · exact absurd (hleft ▸ hdown) (by decide)
      rw [apply, hrow]
      dsimp only
      rw [if_neg hleave, if_neg hdown, if_pos hover]

/-- A claim that is neither accepted nor refuted has no effect. -/
theorem apply_of_not (now : Clock) (haccepts : ¬m.Accepts c) (hrefutes : ¬m.Refutes c) :
    apply now m c = .done m none := by
  cases hrow : m.row? c.address with
  | none =>
      rw [accepts_iff_of_none hrow, Classical.not_imp] at haccepts
      rw [apply, hrow]
      exact if_pos haccepts
  | some row =>
      rw [refutes_iff_of_some hrow] at hrefutes
      rw [accepts_iff_of_some hrow] at haccepts
      rw [apply, hrow]
      dsimp only
      split
      · rfl
      · next hleave =>
        rw [isForeignLeave_iff hrow] at hleave
        rw [if_neg (mt (callsLocalDown_iff hrow).mp hrefutes)]
        refine if_neg fun hover => haccepts ⟨hover, fun hlocal => ?_⟩
        -- said about this node, it calls it neither down nor, by another's word, gone
        cases hstatus : c.status with
        | alive => exact Or.inl rfl
        | leave => exact Or.inr ⟨rfl, by_contra fun hforeign => hleave ⟨hlocal, hstatus, hforeign⟩⟩
        | suspect => exact absurd ⟨hlocal, hstatus ▸ by decide⟩ hrefutes
        | faulty => exact absurd ⟨hlocal, hstatus ▸ by decide⟩ hrefutes
        | tombstone => exact absurd ⟨hlocal, hstatus ▸ by decide⟩ hrefutes

end

/-! ## A completed batch -/

/-- The claims were applied to the first table in order, which left the second one and these
    effects. The clock moves on with each claim. -/
inductive Applied : Clock → Membership → List Change → Membership → List Change → Prop
  | nil {now : Clock} {m : Membership} : Applied now m [] m []
  | ignore {now : Clock} {m m' : Membership} {c : Change} {rest effects : List Change}
      (h : m.Ignores c) (hrest : Applied now.next m rest m' effects) :
      Applied now m (c :: rest) m' effects
  | accept {now : Clock} {m m' : Membership} {c : Change} {rest effects : List Change}
      (hnamed : ¬c.isMalformed) (h : m.Accepts c)
      (hrest : Applied now.next (m.put c.toMember) rest m' effects) :
      Applied now m (c :: rest) m' (c :: effects)
  | refute {now : Clock} {m m' : Membership} {c : Change} {rest effects : List Change} {inc : UInt64}
      (hnamed : ¬c.isMalformed) (h : m.Refutes c) (hinc : m.freshIncarnation? now = some inc)
      (hrest : Applied now.next (m.put (m.refutation inc now).toMember) rest m' effects) :
      Applied now m (c :: rest) m' (m.refutation inc now :: effects)

section

variable {now : Clock} {m m' : Membership} {c : Change} {claims rest effects : List Change}

/-- No claim is both accepted and refuted. -/
theorem not_accepts_of_refutes (h : m.Refutes c) : ¬m.Accepts c := by
  intro ha
  obtain ⟨hlocal, hdown, -⟩ := h
  rcases ha.sparesLocal hlocal with halive | ⟨hleft, -⟩
  · exact absurd (halive ▸ hdown) (by decide)
  · exact absurd (hleft ▸ hdown) (by decide)

/-- A claim that is ignored takes a turn, and leaves the table to the rest. -/
theorem applyAll_cons_of_ignores (h : m.Ignores c) :
    applyAll now m (c :: rest) = applyAll now.next m rest := by
  rw [applyAll]
  split
  · rfl
  · next hnamed =>
    obtain ⟨haccepts, hrefutes⟩ := h.resolve_left hnamed
    rw [apply_of_not now haccepts hrefutes, Attempt.andThen_done]
    show (applyAll now.next m rest).map id = _
    cases applyAll now.next m rest <;> rfl

/-- A claim with an effect leaves another table to the rest, and its effect stands before theirs. -/
theorem applyAll_cons_of_effect {effect : Change} {m₁ : Membership} (hnamed : ¬c.isMalformed)
    (h : apply now m c = .done m₁ (some effect)) :
    applyAll now m (c :: rest) = (applyAll now.next m₁ rest).map fun effects => effect :: effects := by
  rw [applyAll, if_neg hnamed, h, Attempt.andThen_done]
  rfl

/-- **The batches that `applyAll` completes are the ones that were applied claim by claim.** -/
theorem applyAll_eq_done_iff : applyAll now m claims = .done m' effects ↔
    Applied now m claims m' effects := by
  constructor
  · intro h
    -- on the claims, for every clock and table; each step falls under one of the three constructors
    induction claims generalizing now m effects with
    | nil =>
        obtain ⟨rfl, rfl⟩ := Attempt.done.inj h
        exact .nil
    | cons c rest ih =>
        by_cases hnamed : c.isMalformed
        · rw [applyAll_cons_of_ignores (Or.inl hnamed)] at h
          exact .ignore (Or.inl hnamed) (ih h)
        · by_cases haccepts : m.Accepts c
          · rw [applyAll_cons_of_effect hnamed (apply_of_accepts now haccepts)] at h
            obtain ⟨es, hrest, rfl⟩ := Attempt.map_eq_done h
            exact .accept hnamed haccepts (ih hrest)
          · by_cases hrefutes : m.Refutes c
            · have happly := apply_of_refutes now hrefutes
              cases hinc : m.freshIncarnation? now with
              | none =>
                  rw [hinc] at happly
                  rw [applyAll, if_neg hnamed, happly] at h
                  cases h
              | some inc =>
                  rw [hinc] at happly
                  rw [applyAll_cons_of_effect hnamed happly] at h
                  obtain ⟨es, hrest, rfl⟩ := Attempt.map_eq_done h
                  exact .refute hnamed hrefutes hinc (ih hrest)
            · have hignores : m.Ignores c := Or.inr ⟨haccepts, hrefutes⟩
              rw [applyAll_cons_of_ignores hignores] at h
              exact .ignore hignores (ih h)
  · intro h
    induction h with
    | nil => rfl
    | ignore h _ ih => rw [applyAll_cons_of_ignores h, ih]
    | accept hnamed h _ ih =>
        rw [applyAll_cons_of_effect hnamed (apply_of_accepts _ h), ih, Attempt.map_done]
    | @refute now _ _ _ _ _ _ hnamed h hinc _ ih =>
        have happly := apply_of_refutes now h
        rw [hinc] at happly
        rw [applyAll_cons_of_effect hnamed happly, ih, Attempt.map_done]

/-- A batch that was applied was applied up to any of its claims, and from there on. -/
theorem Applied.split {before : List Change} (h : Applied now m (before ++ claims) m' effects) :
    ∃ m₁ first second, Applied now m before m₁ first ∧
      Applied (now.after before.length) m₁ claims m' second ∧ effects = first ++ second := by
  -- on the claims before, which each take a turn of the clock
  induction before generalizing now m effects with
  | nil => exact ⟨m, [], effects, .nil, h, rfl⟩
  | cons c rest ih =>
      cases h with
      | ignore hc hrest =>
          obtain ⟨m₁, first, second, hfirst, hsecond, rfl⟩ := ih hrest
          exact ⟨m₁, first, second, .ignore hc hfirst, hsecond, rfl⟩
      | accept hnamed hc hrest =>
          obtain ⟨m₁, first, second, hfirst, hsecond, rfl⟩ := ih hrest
          exact ⟨m₁, c :: first, second, .accept hnamed hc hfirst, hsecond, rfl⟩
      | refute hnamed hc hinc hrest =>
          obtain ⟨m₁, first, second, hfirst, hsecond, rfl⟩ := ih hrest
          exact ⟨m₁, _ :: first, second, .refute hnamed hc hinc hfirst, hsecond, rfl⟩

/-- Batches applied one after the other are one batch. -/
theorem Applied.append {m₁ : Membership} {first second : List Change}
    (h : Applied now m claims m₁ first)
    (hrest : Applied (now.after claims.length) m₁ rest m' second) :
    Applied now m (claims ++ rest) m' (first ++ second) := by
  induction h with
  | nil => exact hrest
  | ignore hc _ ih => exact .ignore hc (ih hrest)
  | accept hnamed hc _ ih => exact .accept hnamed hc (ih hrest)
  | refute hnamed hc hinc _ ih => exact .refute hnamed hc hinc (ih hrest)

/-! ## What a batch leaves -/

/-- The table afterwards is the one before with the effects recorded in order. -/
theorem Applied.eq_putAll (h : Applied now m claims m' effects) : m' = m.putAll effects := by
  induction h with
  | nil => rfl
  | ignore _ _ ih => exact ih
  | accept _ _ _ ih => exact ih
  | refute _ _ _ _ ih => exact ih

@[simp] theorem here_put (m : Membership) (row : Member) : (m.put row).here = m.here := by
  rw [put]
  split <;> rfl

@[simp] theorem hash_put (m : Membership) (row : Member) : (m.put row).hash = m.hash := by
  rw [put]
  split <;> rfl

@[simp] theorem gate_put (m : Membership) (row : Member) : (m.put row).gate = m.gate := by
  rw [put]
  split <;> rfl

/-- Recording effects changes neither whose table it is, nor its hash and its gate. -/
theorem here_putAll (m : Membership) (claims : List Change) : (m.putAll claims).here = m.here := by
  induction claims generalizing m with
  | nil => rfl
  | cons c rest ih => rw [putAll_cons, ih, here_put]

theorem hash_putAll (m : Membership) (claims : List Change) : (m.putAll claims).hash = m.hash := by
  induction claims generalizing m with
  | nil => rfl
  | cons c rest ih => rw [putAll_cons, ih, hash_put]

theorem gate_putAll (m : Membership) (claims : List Change) : (m.putAll claims).gate = m.gate := by
  induction claims generalizing m with
  | nil => rfl
  | cons c rest ih => rw [putAll_cons, ih, gate_put]

theorem Applied.here_eq (h : Applied now m claims m' effects) : m'.here = m.here := by
  rw [h.eq_putAll, here_putAll]

theorem Applied.hash_eq (h : Applied now m claims m' effects) : m'.hash = m.hash := by
  rw [h.eq_putAll, hash_putAll]

theorem Applied.gate_eq (h : Applied now m claims m' effects) : m'.gate = m.gate := by
  rw [h.eq_putAll, gate_putAll]

/-! ## The node's own incarnation -/

/-- The node knows itself at this incarnation or a greater one. -/
def Owns (m : Membership) (inc : UInt64) : Prop :=
  ∃ row, m.localRow? = some row ∧ inc ≤ row.incarnation

/-- Only the row of the node itself is read as its own. -/
theorem localRow?_put (m : Membership) (row : Member) :
    (m.put row).localRow? = if row.address = m.here then some row else m.localRow? := by
  rw [localRow?, here_put, row?_put]
  simp only [eq_comm (a := m.here)]
  rfl

theorem localIncarnation_of_localRow? {row : Member} (h : m.localRow? = some row) :
    m.localIncarnation = row.incarnation := by
  rw [localIncarnation, h]

/-- A node at the largest incarnation knows itself. -/
theorem exists_localRow?_of_spent (h : m.localIncarnation = lastIncarnation) :
    ∃ row, m.localRow? = some row ∧ row.incarnation = lastIncarnation := by
  rw [localIncarnation] at h
  cases hrow : m.localRow? with
  | none =>
      rw [hrow] at h
      exact absurd h (by decide)
  | some row =>
      rw [hrow] at h
      exact ⟨row, rfl, h⟩

/-- What counts as fresh is above the node's own incarnation. -/
theorem lt_of_freshIncarnation? {inc : UInt64} (h : m.freshIncarnation? now = some inc) :
    m.localIncarnation < inc := by
  rw [freshIncarnation?] at h
  by_cases hlast : m.localIncarnation = lastIncarnation
  · rw [if_pos hlast] at h
    cases h
  · rw [if_neg hlast] at h
    obtain rfl := Option.some.inj h
    have hle : m.localIncarnation + 1 ≤ max now.reading (m.localIncarnation + 1) := by
      show _ ≤ if _ then _ else _
      split
      · exact UInt64.le_refl _
      · next hgreater => exact UInt64.le_of_lt (UInt64.not_le.mp hgreater)
    exact UInt64.lt_of_lt_of_le (UInt64.lt_add_one hlast) hle

/-- A node that knows itself knows itself at its incarnation. -/
theorem owns_localIncarnation (h : (m.localRow?).isSome) : m.Owns m.localIncarnation := by
  obtain ⟨row, hrow⟩ := Option.isSome_iff_exists.mp h
  exact ⟨row, hrow, UInt64.le_of_eq (localIncarnation_of_localRow? hrow)⟩

theorem Owns.mono {inc inc' : UInt64} (h : m.Owns inc) (hle : inc' ≤ inc) : m.Owns inc' := by
  obtain ⟨row, hrow, hinc⟩ := h
  exact ⟨row, hrow, UInt64.le_trans hle hinc⟩

/-- A node still knows itself at an incarnation, if what is recorded of it is no older than its row.
    -/
theorem Owns.put {inc : UInt64} {row : Member} (h : m.Owns inc)
    (hrow : row.address = m.here → m.localIncarnation ≤ row.incarnation) :
    (m.put row).Owns inc := by
  obtain ⟨old, hold, hinc⟩ := h
  by_cases hlocal : row.address = m.here
  · have hnewer := hrow hlocal
    rw [localIncarnation_of_localRow? hold] at hnewer
    exact ⟨row, by rw [localRow?_put, if_pos hlocal], UInt64.le_trans hinc hnewer⟩
  · exact ⟨old, by rw [localRow?_put, if_neg hlocal, hold], hinc⟩

theorem owns_put_self {row : Member} (h : row.address = m.here) :
    (m.put row).Owns row.incarnation :=
  ⟨row, by rw [localRow?_put, if_pos h], UInt64.le_refl _⟩

/-- A claim that is accepted about this node is at least as new as the node's row. -/
theorem Accepts.localIncarnation_le (h : m.Accepts c) (hlocal : c.address = m.here) :
    m.localIncarnation ≤ c.incarnation := by
  cases hrow : m.row? c.address with
  | none =>
      have hnone : m.localRow? = none := by rw [localRow?, ← hlocal, hrow]
      rw [localIncarnation, hnone]
      exact UInt64.zero_le
  | some row =>
      have hknown : m.localRow? = some row := by rw [localRow?, ← hlocal, hrow]
      rw [localIncarnation_of_localRow? hknown]
      exact Precedence.incarnation_le_of_overrides ((accepts_iff_of_some hrow).mp h).1

/-- **A node's own incarnation never decreases.** -/
theorem Applied.owns {inc : UInt64} (h : Applied now m claims m' effects) (hinc : m.Owns inc) :
    m'.Owns inc := by
  induction h with
  | nil => exact hinc
  | ignore _ _ ih => exact ih hinc
  | accept _ hc _ ih => exact ih (hinc.put hc.localIncarnation_le)
  | refute _ _ hfresh _ ih =>
      exact ih (hinc.put fun _ => UInt64.le_of_lt (lt_of_freshIncarnation? hfresh))

/-! ## Where the effects come from -/

/-- The claim is a refutation by this node, which has reached its incarnation. -/
def IsRefutation (m : Membership) (e : Change) : Prop :=
  e.address = m.here ∧ e.status = .alive ∧ e.source = m.here ∧ m.Owns e.incarnation

/-- **Every effect was claimed and spares this node, or is a refutation.** -/
theorem Applied.origin (h : Applied now m claims m' effects) {e : Change} (he : e ∈ effects) :
    ¬e.isMalformed ∧ (e ∈ claims ∧ m.SparesLocal e ∨ m'.IsRefutation e) := by
  induction h with
  | nil => exact absurd he List.not_mem_nil
  | ignore _ _ ih =>
      obtain ⟨hnamed, horigin⟩ := ih he
      exact ⟨hnamed, horigin.imp_left (And.imp_left (List.mem_cons_of_mem _))⟩
  | @accept now m m' c rest effects hnamed hc _ ih =>
      have hspares : (m.put c.toMember).SparesLocal e = m.SparesLocal e := by
        rw [SparesLocal, here_put]
        rfl
      -- the effect is this claim, or comes later, when the node is still the same
      rcases List.mem_cons.mp he with rfl | he
      · exact ⟨hnamed, Or.inl ⟨List.mem_cons_self, hc.sparesLocal⟩⟩
      · obtain ⟨hnamed, horigin⟩ := hspares ▸ ih he
        exact ⟨hnamed, horigin.imp_left (And.imp_left (List.mem_cons_of_mem _))⟩
  | @refute now m m' c rest effects inc hnamed hc hfresh hrest ih =>
      have hspares : (m.put (m.refutation inc now).toMember).SparesLocal e = m.SparesLocal e := by
        rw [SparesLocal, here_put]
        rfl
      rcases List.mem_cons.mp he with rfl | he
      · -- the answer is a refutation also at the end, as the node never falls behind the answer
        have hhere : m'.here = m.here := hrest.here_eq.trans (here_put _ _)
        have howns : (m.put (m.refutation inc now).toMember).Owns inc := owns_put_self rfl
        have hnamed' : ¬(m.refutation inc now).isMalformed := by
          rw [Change.isMalformed, hc.1] at hnamed
          exact hnamed
        exact ⟨hnamed', Or.inr ⟨hhere.symm, rfl, hhere.symm, hrest.owns howns⟩⟩
      · obtain ⟨hnamed, horigin⟩ := hspares ▸ ih he
        exact ⟨hnamed, horigin.imp_left (And.imp_left (List.mem_cons_of_mem _))⟩

/-! ## The rows of other members -/

/-- What a claim makes of the row of a member other than this node. -/
def takeClaim (row : Option Member) (c : Change) : Option Member :=
  match row with
  | none => some c.toMember
  | some old => if Precedence.overrides old c then some c.toMember else some old

theorem takeClaim_of_accepts (h : m.Accepts c) :
    takeClaim (m.row? c.address) c = some c.toMember := by
  cases hrow : m.row? c.address with
  | none => rfl
  | some row => exact if_pos ((accepts_iff_of_some hrow).mp h).1

/-- A claim about another member that is not accepted leaves the row as it was. -/
theorem takeClaim_of_not_accepts (hremote : c.address ≠ m.here) (h : ¬m.Accepts c) :
    takeClaim (m.row? c.address) c = m.row? c.address := by
  cases hrow : m.row? c.address with
  | none => exact absurd ((accepts_iff_of_none hrow).mpr fun hlocal => absurd hlocal hremote) h
  | some row =>
      refine if_neg fun hover => h ((accepts_iff_of_some hrow).mpr ⟨hover, ?_⟩)
      exact fun hlocal => absurd hlocal hremote

/-- The claims about one member, without the malformed ones. -/
def claimsAbout (address : String) (claims : List Change) : List Change :=
  claims.filter fun c => !c.isMalformed && c.address = address

theorem mem_claimsAbout {address : String} :
    c ∈ claimsAbout address claims ↔ c ∈ claims ∧ ¬c.isMalformed ∧ c.address = address := by
  simp [claimsAbout]

theorem claimsAbout_cons_of_ne {address : String} (h : c.address ≠ address) :
    claimsAbout address (c :: rest) = claimsAbout address rest := by
  simp [claimsAbout, h]

theorem claimsAbout_cons_self (h : ¬c.isMalformed) :
    claimsAbout c.address (c :: rest) = c :: claimsAbout c.address rest := by
  simp [claimsAbout, h]

theorem claimsAbout_cons_of_malformed {address : String} (h : c.isMalformed) :
    claimsAbout address (c :: rest) = claimsAbout address rest := by
  simp [claimsAbout, h]

/-- **The row of another member is decided by the claims about it, in their order.** -/
theorem Applied.row?_eq {address : String} (h : Applied now m claims m' effects)
    (hremote : address ≠ m.here) :
    m'.row? address = (claimsAbout address claims).foldl takeClaim (m.row? address) := by
  -- one claim at a time: only those about the address move what the others are folded over
  induction h with
  | nil => rfl
  | @ignore now m m' c rest effects hc _ ih =>
      rw [ih hremote]
      rcases hc with hmalformed | ⟨haccepts, -⟩
      · rw [claimsAbout_cons_of_malformed hmalformed]
      · by_cases hmalformed : c.isMalformed
        · rw [claimsAbout_cons_of_malformed hmalformed]
        · by_cases habout : c.address = address
          · subst habout
            rw [claimsAbout_cons_self hmalformed, List.foldl_cons,
              takeClaim_of_not_accepts hremote haccepts]
          · rw [claimsAbout_cons_of_ne habout]
  | @accept now m m' c rest effects hnamed hc _ ih =>
      rw [here_put] at ih
      rw [ih hremote, row?_put]
      by_cases habout : c.address = address
      · subst habout
        rw [claimsAbout_cons_self hnamed, List.foldl_cons, takeClaim_of_accepts hc]
        exact congrArg (List.foldl takeClaim · _) (if_pos rfl)
      · have hne : ¬address = c.toMember.address := fun h => habout h.symm
        rw [claimsAbout_cons_of_ne habout, if_neg hne]
  | @refute now m m' c rest effects inc _ hc _ _ ih =>
      rw [here_put] at ih
      -- a refutation is about the node itself, so this row is not touched
      have habout : c.address ≠ address := fun h => hremote (h ▸ hc.1)
      have hne : ¬address = (m.refutation inc now).toMember.address := hremote
      rw [ih hremote, row?_put, if_neg hne, claimsAbout_cons_of_ne habout]

/-- Claims about other members leave the node's own row alone. -/
theorem Applied.localRow?_eq (h : Applied now m claims m' effects)
    (hremote : ∀ c ∈ claims, c.address ≠ m.here) : m'.localRow? = m.localRow? := by
  induction h with
  | nil => rfl
  | ignore _ _ ih => exact ih fun c hc => hremote c (List.mem_cons_of_mem _ hc)
  | accept _ _ _ ih =>
      rw [here_put] at ih
      rw [ih fun c hc => hremote c (List.mem_cons_of_mem _ hc), localRow?_put]
      exact if_neg (hremote _ List.mem_cons_self)
  | refute _ hc _ _ _ => exact absurd hc.1 (hremote _ List.mem_cons_self)

/-! ## Batches that are completed -/

/-- Claims that are all ignored change nothing. -/
theorem applied_of_ignores (h : ∀ c ∈ claims, m.Ignores c) : Applied now m claims m [] := by
  induction claims generalizing now with
  | nil => exact .nil
  | cons c rest ih =>
      exact .ignore (h c List.mem_cons_self) (ih fun c hc => h c (List.mem_cons_of_mem _ hc))

/-- A claim can be applied unless it needs a refutation that no incarnation is left for. Whatever
    becomes of it, only a claim about this node changes the node's own row. -/
theorem exists_applied_cons (hroom : m.Refutes c → m.localIncarnation ≠ lastIncarnation)
    (hrest : ∀ m₁ : Membership, m₁.here = m.here →
      (c.address ≠ m.here → m₁.localRow? = m.localRow?) →
      ∃ m' effects, Applied now.next m₁ rest m' effects) :
    ∃ m' effects, Applied now m (c :: rest) m' effects := by
  by_cases hignores : m.Ignores c
  · obtain ⟨m', effects, happlied⟩ := hrest m rfl fun _ => rfl
    exact ⟨m', effects, .ignore hignores happlied⟩
  · obtain ⟨hnamed, hnot⟩ := not_or.mp hignores
    by_cases haccepts : m.Accepts c
    · -- whatever becomes of the claim, the rest is applied to a table of the same node
      obtain ⟨m', effects, happlied⟩ := hrest (m.put c.toMember) (here_put _ _) fun hremote => by
        rw [localRow?_put]
        exact if_neg hremote
      exact ⟨m', c :: effects, .accept hnamed haccepts happlied⟩
    · have hrefutes : m.Refutes c := by_contra fun h => hnot ⟨haccepts, h⟩
      have hfresh : m.freshIncarnation? now = some (max now.reading (m.localIncarnation + 1)) :=
        if_neg (hroom hrefutes)
      obtain ⟨m', effects, happlied⟩ := hrest (m.put (m.refutation _ now).toMember) (here_put _ _)
        fun hremote => absurd hrefutes.1 hremote
      exact ⟨m', _ :: effects, .refute hnamed hrefutes hfresh happlied⟩

/-- **Claims about other members are always applied.** -/
theorem exists_applied_of_remote (now : Clock) (h : ∀ c ∈ claims, c.address ≠ m.here) :
    ∃ m' effects, Applied now m claims m' effects := by
  induction claims generalizing now m with
  | nil => exact ⟨m, [], .nil⟩
  | cons c rest ih =>
      have hremote : c.address ≠ m.here := h c List.mem_cons_self
      refine exists_applied_cons (fun hrefutes => absurd hrefutes.1 hremote) ?_
      refine fun m₁ hhere _ => ih now.next ?_
      intro d hd
      rw [hhere]
      exact h d (List.mem_cons_of_mem _ hd)

/-- **A batch with at most one claim about this node is applied**, if that one is not refuted at the
    largest incarnation. -/
theorem exists_applied (now : Clock)
    (hroom : ∀ c ∈ claims, m.Refutes c → m.localIncarnation ≠ lastIncarnation)
    (hsingle : claims.Pairwise fun c d => c.address = m.here → d.address ≠ m.here) :
    ∃ m' effects, Applied now m claims m' effects := by
  induction claims generalizing now m with
  | nil => exact ⟨m, [], .nil⟩
  | cons c rest ih =>
      obtain ⟨hothers, hrest⟩ := List.pairwise_cons.mp hsingle
      refine exists_applied_cons (hroom c List.mem_cons_self) fun m₁ hhere hsame => ?_
      by_cases hlocal : c.address = m.here
      · -- this is the claim about the node: those that follow are about others
        refine exists_applied_of_remote now.next fun d hd => ?_
        rw [hhere]
        exact hothers d hd hlocal
      · refine ih now.next ?_ ?_
        · intro d hd hrefutes
          rw [Refutes, hhere, hsame hlocal] at hrefutes
          rw [localIncarnation, hsame hlocal]
          exact hroom d (List.mem_cons_of_mem _ hd) hrefutes
        · rw [hhere]
          exact hrest

/-- Where the first claim about this node is one that it refutes, and the batch is applied, the node was
    below the largest incarnation. -/
theorem Applied.room {before : List Change} (h : Applied now m (before ++ c :: rest) m' effects)
    (hothers : ∀ d ∈ before, d.address ≠ m.here) (hnamed : ¬c.isMalformed) (hrefutes : m.Refutes c) :
    m.localIncarnation ≠ lastIncarnation := by
  obtain ⟨m₁, first, second, hbefore, hafter, -⟩ := h.split
  have hrow : m₁.localRow? = m.localRow? := hbefore.localRow?_eq hothers
  have hrefutes₁ : m₁.Refutes c := by
    rw [Refutes, hbefore.here_eq, hrow]
    exact hrefutes
  have hsame : m₁.localIncarnation = m.localIncarnation := by
    rw [localIncarnation, localIncarnation, hrow]
  -- of the three only a refutation is possible, and it needed a fresh incarnation
  cases hafter with
  | ignore hignores _ => exact absurd hrefutes₁ (hignores.resolve_left hnamed).2
  | accept _ haccepts _ => exact absurd haccepts (not_accepts_of_refutes hrefutes₁)
  | refute _ _ hfresh _ =>
      intro hlast
      rw [freshIncarnation?, if_pos (hsame.trans hlast)] at hfresh
      cases hfresh

/-! ## Batches that stop -/

/-- A batch that stopped was applied up to a claim that this node is down, which nothing was left to
    refute with. -/
theorem applyAll_eq_exhausted (h : applyAll now m claims = .exhausted m') :
    ∃ before c after effects, claims = before ++ c :: after ∧ Applied now m before m' effects ∧
      ¬c.isMalformed ∧ m'.Refutes c ∧ m'.localIncarnation = lastIncarnation := by
  induction claims generalizing now m with
  | nil => cases h
  | cons c rest ih =>
      by_cases hignores : m.Ignores c
      · rw [applyAll_cons_of_ignores hignores] at h
        obtain ⟨before, d, after, effects, rfl, hbefore, hstop⟩ := ih h
        exact ⟨c :: before, d, after, effects, rfl, .ignore hignores hbefore, hstop⟩
      · obtain ⟨hnamed, hnot⟩ := not_or.mp hignores
        by_cases haccepts : m.Accepts c
        · rw [applyAll_cons_of_effect hnamed (apply_of_accepts now haccepts)] at h
          obtain ⟨before, d, after, effects, rfl, hbefore, hstop⟩ := ih (Attempt.map_eq_exhausted h)
          exact ⟨c :: before, d, after, _, rfl, .accept hnamed haccepts hbefore, hstop⟩
        · have hrefutes : m.Refutes c := by_contra fun hr => hnot ⟨haccepts, hr⟩
          have happly := apply_of_refutes now hrefutes
          cases hinc : m.freshIncarnation? now with
          -- the batch stops here, and was applied so far
          | none =>
              rw [hinc] at happly
              rw [applyAll, if_neg hnamed, happly] at h
              obtain rfl := Attempt.exhausted.inj h
              exact ⟨[], c, rest, [], rfl, .nil, hnamed, hrefutes,
                localIncarnation_of_freshIncarnation? hinc⟩
          | some inc =>
              rw [hinc] at happly
              rw [applyAll_cons_of_effect hnamed happly] at h
              obtain ⟨before, d, after, effects, rfl, hbefore, hstop⟩ := ih (Attempt.map_eq_exhausted h)
              exact ⟨c :: before, d, after, _, rfl, .refute hnamed hrefutes hinc hbefore, hstop⟩

/-- Claims that are held back do not stop, and those that are not stop as a batch does. -/
theorem update_eq_exhausted {localAlive : Bool} (h : m.update now claims localAlive = .exhausted m') :
    (m.isReady || localAlive) = true ∧ ∃ before c after effects, claims = before ++ c :: after ∧
      Applied now m before m' effects ∧ m'.Refutes c := by
  rw [update] at h
  split at h
  · next htaken =>
    rcases Attempt.andThen_eq_exhausted h with hall | ⟨m₁, effects, -, hlast⟩
    · obtain ⟨before, c, after, effects, hclaims, happlied, -, hrefutes, -⟩ :=
        applyAll_eq_exhausted hall
      exact ⟨htaken, before, c, after, effects, hclaims, happlied, hrefutes⟩
    · cases hlast
  · cases h

end

end Membership

end GossipRing
