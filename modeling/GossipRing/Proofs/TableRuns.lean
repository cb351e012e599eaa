import GossipRing.Proofs.Batches

/-!
# Runs of a table

Toward: what holds of a table whatever was done to it. Every operation either applies a batch of
claims or adopts snapshots, and beyond that only the gate, the checksum and the log change.

* **`Op`**, **`run`** — the operations on a table, each at its own reading of the clock. A run stops
  where no incarnation is left.
* **`Op.reaching`** — the claims that an operation puts to precedence, after the gate.
* **`Op.apply_cases`** — a completed operation applied these, or adopted snapshots
  (`mem_of_mem_adopt`).
* **`Reached`** — the tables that runs produce. They have one row for each address
  (`Reached.distinct`), and none for the empty one (`Reached.named`).
-/

namespace GossipRing.Membership

/-! ## Operations -/

/-- An operation on a table. -/
inductive Op where
  | update (claims : List Change) (localAlive : Bool)
  | assert (address : String) (status : Status) (incarnation : UInt64)
  | adopt (snapshots : List Snapshot)
  | openGate
  deriving DecidableEq, Repr

/-- What an operation does at some reading of the clock, and the claims that took effect. -/
def Op.apply (now : Clock) (m : Membership) : Op → Attempt Membership (List Change)
  | update claims localAlive => m.update now claims localAlive
  | assert address status incarnation => m.assert now address status incarnation
  | adopt snapshots => .done (m.adopt snapshots).1 (m.adopt snapshots).2
  | openGate => m.openGate now

/-- Operations one after the other. -/
def run (m : Membership) : List (Clock × Op) → Attempt Membership Unit
  | [] => .done m ()
  | (now, op) :: rest => (op.apply now m).andThen fun m _ => run m rest

/-- A claim of this node's own. -/
def ownClaim (m : Membership) (now : Clock) (address : String) (status : Status)
    (incarnation : UInt64) : Change where
  address := address
  status := status
  incarnation := incarnation
  source := m.here
  sourceIncarnation := m.localIncarnation
  timestamp := now.reading

/-- The claims that an operation puts to precedence. The closed gate holds back what is not the
    node's own claim to be alive, and adopting snapshots does not ask precedence. -/
def Op.reaching (now : Clock) (m : Membership) : Op → List Change
  | update claims localAlive => if m.isReady || localAlive then claims else []
  | assert address status incarnation =>
    if m.isReady || (status = .alive && address = m.here) then
      [m.ownClaim now address status incarnation]
    else []
  | adopt _ => []
  | openGate => m.gate.stash

section

variable {now : Clock} {m m' m₁ : Membership} {op : Op} {claims effects : List Change}

/-- Two tables that differ at most in the gate, the checksum, the log and the draws to come. -/
structure Alike (m m' : Membership) : Prop where
  rows : m.rows = m'.rows
  here : m.here = m'.here
  hash : m.hash = m'.hash

namespace Alike

theorem row? (h : Alike m m') (address : String) : m.row? address = m'.row? address :=
  row?_congr h.rows address

theorem localRow? (h : Alike m m') : m.localRow? = m'.localRow? := by
  rw [Membership.localRow?, Membership.localRow?, h.here, h.row?]

theorem localIncarnation (h : Alike m m') : m.localIncarnation = m'.localIncarnation := by
  rw [Membership.localIncarnation, Membership.localIncarnation, h.localRow?]

/-- Whether a table owns an incarnation depends on its rows and its address alone. -/
theorem owns_iff (h : Alike m m') {inc : UInt64} : m.Owns inc ↔ m'.Owns inc := by
  rw [Owns, Owns, h.localRow?]

end Alike

/-- Concluding a batch touches the cached checksum only. -/
theorem alike_conclude (m : Membership) (effects : List Change) : Alike (m.conclude effects) m := by
  rw [conclude]
  split
  · exact ⟨rfl, rfl, rfl⟩
  · exact ⟨rfl, rfl, rfl⟩

theorem gate_conclude (m : Membership) (effects : List Change) :
    (m.conclude effects).gate = m.gate := by
  rw [conclude]
  split <;> rfl

theorem alike_releaseStash (m : Membership) (consumed : Bool) :
    Alike (m.releaseStash consumed) m := by
  obtain ⟨gate, h⟩ := releaseStash_eq m consumed
  rw [h]
  exact ⟨rfl, rfl, rfl⟩

/-! ## What a completed operation has done -/

/-- The gate does not matter to a batch. -/
theorem Applied.setGate (gate : Gate) (h : Applied now m claims m' effects) :
    Applied now { m with gate := gate } claims { m' with gate := gate } effects := by
  induction h with
  | nil => exact .nil
  | ignore h _ ih => exact .ignore h ih
  | accept hnamed h _ ih =>
      rw [← put_gate] at ih
      exact .accept hnamed h ih
  | refute hnamed h hinc _ ih =>
      rw [← put_gate] at ih
      exact .refute hnamed h hinc ih

/-- A completed batch is a run of its claims, followed by the new checksum. -/
theorem applyBatch_eq_done (h : applyBatch now m claims = .done m' effects) :
    ∃ m₁, Applied now m claims m₁ effects ∧ m' = m₁.conclude effects := by
  rw [applyBatch] at h
  obtain ⟨m₁, es, hall, hlast⟩ := Attempt.andThen_eq_done h
  obtain ⟨rfl, rfl⟩ := Attempt.done.inj hlast
  exact ⟨m₁, applyAll_eq_done_iff.mp hall, rfl⟩

/-- Whatever a run of the claims arrives at, the batch arrives at it too and concludes there. -/
theorem applyBatch_of_applied (h : Applied now m claims m₁ effects) :
    applyBatch now m claims = .done (m₁.conclude effects) effects := by
  rw [applyBatch, applyAll_eq_done_iff.mpr h, Attempt.andThen_done]

/-- A table that is ready applies what it takes in. -/
theorem update_of_applied (hready : m.isReady) (localAlive : Bool)
    (h : Applied now m claims m₁ effects) :
    m.update now claims localAlive = .done (m₁.conclude effects) effects := by
  rw [update, hready, Bool.true_or, if_pos rfl, applyBatch_of_applied h]

/-- Taking in claims applies them, or holds them back. -/
theorem update_eq_done {localAlive : Bool} (h : m.update now claims localAlive = .done m' effects) :
    ∃ m₁, Applied now m (if m.isReady || localAlive then claims else []) m₁ effects ∧
      Alike m' m₁ := by
  rw [update] at h
  split at h
  · next hopen =>
    rw [if_pos hopen]
    obtain ⟨m₁, happlied, rfl⟩ := applyBatch_eq_done h
    exact ⟨m₁, happlied, alike_conclude m₁ effects⟩
  · next hclosed =>
    rw [if_neg hclosed]
    obtain ⟨rfl, rfl⟩ := Attempt.done.inj h
    exact ⟨m, .nil, rfl, rfl, rfl⟩

/-- **An opened gate lets in what was held back as one batch.** -/
theorem openGate_eq_update (m : Membership) (now : Clock) :
    m.openGate now = ({ m with gate := .opened } : Membership).update now m.gate.stash false := by
  rw [openGate]
  split
  · next hempty =>
    rw [List.isEmpty_iff.mp hempty]
    rfl
  · rfl

/-- **A completed operation has adopted snapshots, or applied the claims that reach precedence.** -/
theorem Op.apply_cases (h : op.apply now m = .done m' effects) :
    (∃ snapshots, op = .adopt snapshots ∧ m' = (m.adopt snapshots).1 ∧
      effects = (m.adopt snapshots).2) ∨
    (∃ m₁, Applied now m (op.reaching now m) m₁ effects ∧ Alike m' m₁) := by
  cases op with
  | update claims localAlive => exact Or.inr (update_eq_done h)
  | assert address status incarnation =>
      have h : m.update now [m.ownClaim now address status incarnation]
          (status = .alive && address = m.here) = .done m' effects := h
      exact Or.inr (update_eq_done h)
  | adopt snapshots =>
      obtain ⟨rfl, rfl⟩ := Attempt.done.inj h
      exact Or.inl ⟨snapshots, rfl, rfl, rfl⟩
  | openGate =>
      refine Or.inr ?_
      have h : m.openGate now = .done m' effects := h
      rw [Membership.openGate] at h
      split at h
      · -- an empty stash: opening the gate applies nothing
        next hempty =>
        obtain ⟨rfl, rfl⟩ := Attempt.done.inj h
        refine ⟨m, ?_, rfl, rfl, rfl⟩
        rw [reaching, List.isEmpty_iff.mp hempty]
        exact .nil
      · -- the claims are applied with the gate open already, which their run does not look at
        obtain ⟨m₁, happlied, halike⟩ := update_eq_done h
        have happlied := happlied.setGate m.gate
        exact ⟨{ m₁ with gate := m.gate }, happlied, halike.rows, halike.here, halike.hash⟩

/-- The node's own claim to be alive passes the gate. -/
theorem assert_here_eq_applyBatch (m : Membership) (now : Clock) (inc : UInt64) :
    m.assert now m.here .alive inc = applyBatch now m [m.ownClaim now m.here .alive inc] := by
  show m.update now _ (decide (Status.alive = .alive) && decide (m.here = m.here)) = _
  rw [decide_eq_true rfl, decide_eq_true rfl, update, Bool.and_self, Bool.or_true, if_pos rfl]
  rfl

/-- Asserting the node's own life changes its own row or nothing. -/
theorem assert_here (m : Membership) (now : Clock) (inc : UInt64) :
    m.assert now m.here .alive inc = .done m [] ∨
    m.assert now m.here .alive inc =
      .done ((m.put ⟨m.here, .alive, inc⟩).conclude [m.ownClaim now m.here .alive inc])
        [m.ownClaim now m.here .alive inc] := by
  rw [assert_here_eq_applyBatch]
  by_cases hignores : m.Ignores (m.ownClaim now m.here .alive inc)
  · exact Or.inl (applyBatch_of_applied (.ignore hignores .nil))
  · obtain ⟨hnamed, hnot⟩ := not_or.mp hignores
    have hrefutes : ¬m.Refutes (m.ownClaim now m.here .alive inc) := by
      rintro ⟨-, hdown, -⟩
      have hdown : Status.alive.IsDown := hdown
      exact absurd hdown (by decide)
    have haccepts : m.Accepts (m.ownClaim now m.here .alive inc) :=
      by_contra fun h => hnot ⟨h, hrefutes⟩
    exact Or.inr (applyBatch_of_applied (.accept hnamed haccepts .nil))

/-! ## Adopting snapshots -/

/-- A snapshot entry that is adopted is one of the given entries, about a peer, and it names somebody.
    -/
theorem mem_of_mem_adoptAll {e : Change} (he : e ∈ (m.adoptAll claims).2) :
    e ∈ claims ∧ e.address ≠ m.here ∧ ¬e.isMalformed := by
  induction claims generalizing m with
  | nil => exact absurd he List.not_mem_nil
  | cons c rest ih =>
      have he : e ∈ (m.adoptOne c).2.toList ++ ((m.adoptOne c).1.adoptAll rest).2 := he
      have hhere : (m.adoptOne c).1.here = m.here := by
        rw [adoptOne_eq, here_putAll]
      rcases List.mem_append.mp he with he | he
      · have heffect : (m.adoptOne c).2 = some e := Option.mem_toList.mp he
        rw [adoptOne] at heffect
        split at heffect
        · cases heffect
        · next hskip =>
          rw [not_or] at hskip
          split at heffect
          · cases heffect
          · obtain rfl := Option.some.inj heffect
            exact ⟨List.mem_cons_self, hskip⟩
      · obtain ⟨hmem, hrest⟩ := ih he
        rw [hhere] at hrest
        exact ⟨List.mem_cons_of_mem _ hmem, hrest⟩

/-- What is adopted was in a snapshot or held back, and is about another member. -/
theorem mem_of_mem_adopt {snapshots : List Snapshot} {e : Change}
    (he : e ∈ (m.adopt snapshots).2) :
    e ∈ (Snapshot.reconcile m.here snapshots m.gate.stash).changes ∧ e.address ≠ m.here ∧
      ¬e.isMalformed := by
  obtain ⟨hmem, hremote, hnamed⟩ := mem_of_mem_adoptAll he
  rw [(alike_releaseStash m _).here] at hremote
  exact ⟨hmem, hremote, hnamed⟩

/-- Adopting snapshots writes the adopted entries into the table, and beyond that it moves only the
    gate and the checksum. -/
theorem adopt_alike (m : Membership) (snapshots : List Snapshot) :
    Alike (m.adopt snapshots).1 (m.putAll (m.adopt snapshots).2) := by
  have hreleased := alike_releaseStash m
    (Snapshot.reconcile m.here snapshots m.gate.stash).consumedStash
  refine ⟨reported_adopt m snapshots, ?_, ?_⟩
  · rw [here_putAll, ← hreleased.here]
    show ((m.releaseStash _).adoptAll _).1.here = _
    rw [adoptAll_eq, here_putAll]
  · rw [hash_putAll, ← hreleased.hash]
    show ((m.releaseStash _).adoptAll _).1.hash = _
    rw [adoptAll_eq, hash_putAll]

theorem here_adopt (m : Membership) (snapshots : List Snapshot) :
    (m.adopt snapshots).1.here = m.here := by
  rw [(adopt_alike m snapshots).here, here_putAll]

/-- Adopting snapshots lets go of what was held back, or leaves the gate alone. -/
theorem gate_adopt (m : Membership) (snapshots : List Snapshot) :
    (m.adopt snapshots).1.gate =
      (m.releaseStash (Snapshot.reconcile m.here snapshots m.gate.stash).consumedStash).gate := by
  show ((m.releaseStash _).adoptAll _).1.gate = _
  rw [adoptAll_eq, gate_putAll]

/-- Adopting snapshots leaves the node's own row alone. -/
theorem localRow?_adopt (m : Membership) (snapshots : List Snapshot) :
    (m.adopt snapshots).1.localRow? = m.localRow? := by
  rw [(adopt_alike m snapshots).localRow?, localRow?, here_putAll]
  refine row?_putAll_of_not_mem fun hmem => ?_
  obtain ⟨e, he, hlocal⟩ := List.mem_map.mp hmem
  exact (mem_of_mem_adopt he).2.1 hlocal

/-! ## What every operation does -/

/-- **Every operation records its effects in order.** -/
theorem Op.alike_putAll (h : op.apply now m = .done m' effects) : Alike m' (m.putAll effects) := by
  rcases op.apply_cases h with ⟨snapshots, -, rfl, rfl⟩ | ⟨m₁, happlied, halike⟩
  · exact adopt_alike m snapshots
  · exact happlied.eq_putAll ▸ halike

theorem Op.here_eq (h : op.apply now m = .done m' effects) : m'.here = m.here := by
  rw [(op.alike_putAll h).here, here_putAll]

/-- Where no claim about the node itself is put to precedence, its own row stays. -/
theorem Op.localRow?_eq (h : op.apply now m = .done m' effects)
    (hremote : ∀ c ∈ op.reaching now m, c.address ≠ m.here) : m'.localRow? = m.localRow? := by
  rcases op.apply_cases h with ⟨snapshots, -, rfl, -⟩ | ⟨m₁, happlied, halike⟩
  · exact localRow?_adopt m snapshots
  · rw [halike.localRow?]
    exact happlied.localRow?_eq hremote

theorem Op.hash_eq (h : op.apply now m = .done m' effects) : m'.hash = m.hash := by
  rw [(op.alike_putAll h).hash, hash_putAll]

/-- No effect is about nobody. -/
theorem Op.not_isMalformed (h : op.apply now m = .done m' effects) {e : Change} (he : e ∈ effects) :
    ¬e.isMalformed := by
  rcases op.apply_cases h with ⟨snapshots, -, rfl, rfl⟩ | ⟨m₁, happlied, -⟩
  · exact (mem_of_mem_adopt he).2.2
  · exact (happlied.origin he).1

/-- **A node's own incarnation never decreases**, whatever is done to its table. -/
theorem Op.owns {inc : UInt64} (h : op.apply now m = .done m' effects) (hinc : m.Owns inc) :
    m'.Owns inc := by
  rcases op.apply_cases h with ⟨snapshots, -, rfl, -⟩ | ⟨m₁, happlied, halike⟩
  · rw [Owns, localRow?_adopt]
    exact hinc
  · exact halike.owns_iff.mpr (happlied.owns hinc)

/-! ## Rows -/

theorem mem_rows_put {row r : Member} (h : r ∈ (m.put row).rows) : r = row ∨ r ∈ m.rows := by
  rw [put] at h
  split at h
  · obtain ⟨old, hold, rfl⟩ := List.mem_map.mp h
    split
    · exact Or.inl rfl
    · exact Or.inr hold
  · have hbound := Nat.le_of_lt_succ (m.chance.draw_lt (Nat.succ_pos m.rows.length))
    exact (List.mem_insertIdx hbound).mp h

/-- Every row after a batch was there, or is that of an effect. -/
theorem mem_rows_putAll {r : Member} (h : r ∈ (m.putAll claims).rows) :
    r ∈ m.rows ∨ ∃ c ∈ claims, c.toMember = r := by
  induction claims generalizing m with
  | nil => exact Or.inl h
  | cons c rest ih =>
      rw [putAll_cons] at h
      rcases ih h with h | ⟨d, hd, rfl⟩
      · rcases mem_rows_put h with rfl | h
        · exact Or.inr ⟨c, List.mem_cons_self, rfl⟩
        · exact Or.inl h
      · exact Or.inr ⟨d, List.mem_cons_of_mem _ hd, rfl⟩

/-- What an address has after many rows were written is what it had before or one of these rows. -/
theorem row?_putAll_eq_some {address : String} {r : Member}
    (h : (m.putAll claims).row? address = some r) :
    m.row? address = some r ∨ ∃ c ∈ claims, c.toMember = r := by
  induction claims generalizing m with
  | nil => exact Or.inl h
  | cons c rest ih =>
      rw [putAll_cons] at h
      rcases ih h with h | ⟨d, hd, rfl⟩
      · rw [row?_put] at h
        split at h
        · exact Or.inr ⟨c, List.mem_cons_self, Option.some.inj h⟩
        · exact Or.inl h
      · exact Or.inr ⟨d, List.mem_cons_of_mem _ hd, rfl⟩

/-! ## Tables that runs produce -/

/-- What every completed operation keeps, a completed run keeps. -/
theorem run_induction {P : Membership → Prop}
    (hstep : ∀ {now : Clock} {op : Op} {m m' : Membership} {effects : List Change},
      P m → op.apply now m = .done m' effects → P m')
    {ops : List (Clock × Op)} (hm : P m) (hrun : m.run ops = .done m' ()) : P m' := by
  induction ops generalizing m with
  | nil =>
      obtain ⟨rfl, -⟩ := Attempt.done.inj hrun
      exact hm
  | cons entry rest ih =>
      obtain ⟨now, op⟩ := entry
      rw [run] at hrun
      obtain ⟨s, effects, happly, hrest⟩ := Attempt.andThen_eq_done hrun
      exact ih (hstep hm happly) hrest

/-- A table that some run produces from an empty one. -/
def Reached (m : Membership) : Prop :=
  ∃ here hash chance ops, (empty here hash chance).run ops = .done m ()

/-- A run of operations can be cut in two at any place. -/
theorem run_append (m : Membership) (first second : List (Clock × Op)) :
    m.run (first ++ second) = (m.run first).andThen fun m _ => m.run second := by
  induction first generalizing m with
  | nil => rfl
  | cons entry rest ih =>
      obtain ⟨now, op⟩ := entry
      rw [List.cons_append, run, run]
      cases op.apply now m with
      | exhausted m' => rfl
      | done m' effects => exact ih m'

/-- What an operation makes of such a table is one, too. -/
theorem Reached.apply (hm : m.Reached) (h : op.apply now m = .done m' effects) : m'.Reached := by
  obtain ⟨here, hash, chance, ops, hrun⟩ := hm
  refine ⟨here, hash, chance, ops ++ [(now, op)], ?_⟩
  rw [run_append, hrun, Attempt.andThen_done, run, h, Attempt.andThen_done]
  rfl

/-- The table reports what an operation does to it. -/
theorem Op.reported (op : Op) (now : Clock) (m : Membership) : m.Reported (op.apply now m) := by
  cases op with
  | update claims localAlive => exact reported_update m now claims localAlive
  | assert address status incarnation => exact reported_assert m now address status incarnation
  | adopt snapshots => exact reported_adopt m snapshots
  | openGate => exact reported_openGate m now

/-- No row is about nobody. -/
def Named (m : Membership) : Prop := ∀ row ∈ m.rows, row.address ≠ ""

/-- No operation writes a second row for an address. -/
theorem Distinct.apply (hm : m.Distinct) (h : op.apply now m = .done m' effects) :
    m'.Distinct := by
  have hput : (m.putAll effects).Distinct := hm.putAll effects
  rw [Distinct, (op.alike_putAll h).rows]
  exact hput

/-- No operation writes a row for the empty address. -/
theorem Named.apply (hm : m.Named) (h : op.apply now m = .done m' effects) : m'.Named := by
  intro row hrow
  rw [(op.alike_putAll h).rows] at hrow
  rcases mem_rows_putAll hrow with hrow | ⟨e, he, rfl⟩
  · exact hm row hrow
  · intro hempty
    exact op.not_isMalformed h he (String.isEmpty_iff.mpr hempty)

/-- A table that operations have reached from the empty one has one row per address. -/
theorem Reached.distinct (h : Reached m) : m.Distinct := by
  obtain ⟨here, hash, chance, ops, hrun⟩ := h
  have hempty : (empty here hash chance).Distinct := List.nodup_nil
  exact run_induction (P := Distinct) (fun hm h => hm.apply h) hempty hrun

/-- A table that operations have reached from the empty one has no row for the empty address. -/
theorem Reached.named (h : Reached m) : m.Named := by
  obtain ⟨here, hash, chance, ops, hrun⟩ := h
  refine run_induction (P := Named) (fun hm h => hm.apply h) ?_ hrun
  intro row hrow
  exact absurd hrow List.not_mem_nil

end

end GossipRing.Membership
