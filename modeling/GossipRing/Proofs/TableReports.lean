import GossipRing.Membership
import Mathlib.Data.List.InsertIdx
import Mathlib.Data.List.Nodup

/-!
# What a table reports

Toward: whoever hears which claims took effect knows the table. The rest of a node only hears the
claims that an operation on the table reports, so these have to account for every row.

* **`putAll`** — claims recorded one after the other, nothing else.
* **`Reported`** — an operation that is completed leaves the rows of `putAll` on its report, and
  one that stops does so only at the largest incarnation. Every operation that takes claims in is
  so: `reported_update`, `reported_assert`, `reported_adopt`, `reported_openGate`.
* **`Reported.row?_of_not_mem`**, **`Reported.isSome_row?`** — rows change only at reported
  addresses, and every reported address has a row.
* **`Distinct`** — no two rows of one address.
-/

namespace GossipRing.Membership

/-! ## Recording claims -/

/-- Record claims one after the other. -/
def putAll (m : Membership) (claims : List Change) : Membership :=
  claims.foldl (fun m c => m.put c.toMember) m

theorem putAll_cons (m : Membership) (c : Change) (rest : List Change) :
    m.putAll (c :: rest) = (m.put c.toMember).putAll rest := rfl

theorem putAll_append (m : Membership) (first rest : List Change) :
    m.putAll (first ++ rest) = (m.putAll first).putAll rest := List.foldl_append

/-- A gate does not matter to the rows. -/
theorem put_gate (m : Membership) (gate : Gate) (row : Member) :
    ({ m with gate := gate }).put row = { m.put row with gate := gate } := by
  have hrow : ({ m with gate := gate } : Membership).row? row.address = m.row? row.address := rfl
  rw [put, put, hrow]
  cases m.row? row.address with
  | none => rfl
  | some old => rfl

theorem putAll_gate (m : Membership) (gate : Gate) (claims : List Change) :
    ({ m with gate := gate }).putAll claims = { m.putAll claims with gate := gate } := by
  induction claims generalizing m with
  | nil => rfl
  | cons c rest ih => rw [putAll_cons, putAll_cons, put_gate, ih]

/-- Recording claims does not change the row of an address that none of them is about. -/
theorem row?_putAll_of_not_mem {m : Membership} {claims : List Change} {address : String}
    (h : address ∉ claims.map Change.address) :
    (m.putAll claims).row? address = m.row? address := by
  induction claims generalizing m with
  | nil => rfl
  | cons c rest ih =>
      rw [List.map_cons, List.mem_cons, not_or] at h
      obtain ⟨hne, hrest⟩ := h
      rw [putAll_cons, ih hrest, row?_put]
      exact if_neg hne

/-- Recording claims does not delete a row. -/
theorem isSome_row?_putAll_of_isSome {m : Membership} {claims : List Change} {address : String}
    (h : (m.row? address).isSome) : ((m.putAll claims).row? address).isSome := by
  induction claims generalizing m with
  | nil => exact h
  | cons c rest ih =>
      rw [putAll_cons]
      apply ih
      rw [row?_put]
      split
      · exact rfl
      · exact h

/-- Every address that a recorded claim is about has a row. -/
theorem isSome_row?_putAll {m : Membership} {claims : List Change} {address : String}
    (h : address ∈ claims.map Change.address) : ((m.putAll claims).row? address).isSome := by
  induction claims generalizing m with
  | nil => exact absurd h List.not_mem_nil
  | cons c rest ih =>
      rw [putAll_cons]
      rcases List.mem_cons.mp h with rfl | hrest
      · apply isSome_row?_putAll_of_isSome
        rw [row?_put, if_pos (show c.address = c.toMember.address from rfl)]
        rfl
      · exact ih hrest

/-- The row of an address depends on the rows alone. -/
theorem row?_congr {m m' : Membership} (h : m.rows = m'.rows) (address : String) :
    m.row? address = m'.row? address := by
  rw [row?, row?, h]

/-! ## One row for each address -/

/-- No two rows have the same address. -/
def Distinct (m : Membership) : Prop := (m.rows.map Member.address).Nodup

/-- Whether an address has a row. -/
theorem isSome_row?_iff {m : Membership} {address : String} :
    (m.row? address).isSome ↔ address ∈ m.rows.map Member.address := by
  rw [row?, List.find?_isSome, List.mem_map]
  simp only [decide_eq_true_eq]

/-- The row that is found stands in the table and has the address. -/
theorem mem_of_row?_eq_some {m : Membership} {address : String} {row : Member}
    (h : m.row? address = some row) : row ∈ m.rows ∧ row.address = address := by
  have htest := List.find?_some (p := fun r : Member => decide (r.address = address)) h
  exact ⟨List.mem_of_find?_eq_some h, of_decide_eq_true htest⟩

/-- Where rows are distinct, an address has the row that is there. -/
theorem row?_eq_some_iff {m : Membership} (h : m.Distinct) {address : String} {row : Member} :
    m.row? address = some row ↔ row ∈ m.rows ∧ row.address = address := by
  constructor
  · exact mem_of_row?_eq_some
  · rintro ⟨hmem, rfl⟩
    obtain ⟨found, hfound⟩ := Option.isSome_iff_exists.mp
      (isSome_row?_iff.mpr (List.mem_map_of_mem (f := Member.address) hmem))
    obtain ⟨hmem', haddress⟩ := mem_of_row?_eq_some hfound
    rw [hfound, List.inj_on_of_nodup_map h hmem' hmem haddress]

/-- Overwriting a row leaves every address in its place. -/
theorem address_overwriteRow (row : Member) (rows : List Member) :
    (overwriteRow row rows).map Member.address = rows.map Member.address := by
  rw [overwriteRow, List.map_map]
  apply List.map_congr_left
  intro r _
  show (if r.address = row.address then row else r).address = r.address
  split
  · next heq => exact heq.symm
  · rfl

/-- A row of a new address may stand anywhere. -/
theorem Distinct.insertIdx {m : Membership} (h : m.Distinct) {row : Member} {position : Nat}
    (hfresh : row.address ∉ m.rows.map Member.address) (hposition : position ≤ m.rows.length) :
    ((m.rows.insertIdx position row).map Member.address).Nodup := by
  have hperm := (List.perm_insertIdx row m.rows hposition).map Member.address
  rw [hperm.nodup_iff, List.map_cons]
  exact List.nodup_cons.mpr ⟨hfresh, h⟩

/-- Writing one row leaves one row per address. -/
theorem Distinct.put {m : Membership} (h : m.Distinct) (row : Member) : (m.put row).Distinct := by
  rw [Membership.put]
  cases hrow : m.row? row.address with
  | some old =>
      show ((overwriteRow row m.rows).map Member.address).Nodup
      rw [address_overwriteRow]
      exact h
  | none =>
      have hfresh : row.address ∉ m.rows.map Member.address := by
        rw [← isSome_row?_iff, hrow]
        exact Bool.false_ne_true
      have hbound := Nat.le_of_lt_succ (m.chance.draw_lt (Nat.succ_pos m.rows.length))
      exact h.insertIdx hfresh hbound

theorem Distinct.putAll {m : Membership} (h : m.Distinct) (claims : List Change) :
    (m.putAll claims).Distinct := by
  induction claims generalizing m with
  | nil => exact h
  | cons c rest ih => exact ih (h.put c.toMember)

/-! ## Operations report what they do -/

/-- A completed operation leaves the rows of the table it began with, but for the reported claims
    recorded in order. One that stopped did so at the largest incarnation. -/
def Reported (m : Membership) : Attempt Membership (List Change) → Prop
  | .done m' effects => m'.rows = (m.putAll effects).rows
  | .exhausted m' => m'.localIncarnation = lastIncarnation

namespace Reported

variable {m m' : Membership} {effects : List Change} {address : String}

/-- The row of an address that is not reported is the old one. -/
theorem row?_of_not_mem (h : m.Reported (.done m' effects))
    (haddress : address ∉ effects.map Change.address) : m'.row? address = m.row? address :=
  (row?_congr h address).trans (row?_putAll_of_not_mem haddress)

/-- Every reported address has a row. -/
theorem isSome_row? (h : m.Reported (.done m' effects))
    (haddress : address ∈ effects.map Change.address) : (m'.row? address).isSome := by
  rw [row?_congr h]
  exact isSome_row?_putAll haddress

/-- No operation deletes a row. -/
theorem isSome_row?_of_isSome (h : m.Reported (.done m' effects))
    (haddress : (m.row? address).isSome) : (m'.row? address).isSome := by
  rw [row?_congr h]
  exact isSome_row?_putAll_of_isSome haddress

theorem distinct (h : m.Reported (.done m' effects)) (hm : m.Distinct) : m'.Distinct := by
  have hrows : m'.rows = (m.putAll effects).rows := h
  rw [Distinct, hrows]
  exact hm.putAll effects

end Reported

/-- What becomes of one claim: nothing, its row, the row of a refutation, or no answer for want of
    a greater incarnation. -/
theorem apply_cases (now : Clock) (m : Membership) (c : Change) :
    apply now m c = .done m none ∨
    (∃ effect : Change, apply now m c = .done (m.put effect.toMember) (some effect)) ∨
    (m.freshIncarnation? now = none ∧ apply now m c = .exhausted m) := by
  rw [apply]
  cases m.row? c.address with
  | none =>
      dsimp only
      split
      · exact Or.inl rfl
      · exact Or.inr (Or.inl ⟨c, rfl⟩)
  | some row =>
      dsimp only
      split
      · exact Or.inl rfl
      · split
        · -- the node is called down: the row that is put is its own, not the claim's
          cases m.freshIncarnation? now with
          | none => exact Or.inr (Or.inr ⟨rfl, rfl⟩)
          | some inc => exact Or.inr (Or.inl ⟨m.refutation inc now, rfl⟩)
        · split
          · exact Or.inr (Or.inl ⟨c, rfl⟩)
          · exact Or.inl rfl

/-- There is no fresh incarnation only above the largest one. -/
theorem localIncarnation_of_freshIncarnation? {m : Membership} {now : Clock}
    (h : m.freshIncarnation? now = none) : m.localIncarnation = lastIncarnation := by
  rw [freshIncarnation?] at h
  by_cases hlast : m.localIncarnation = lastIncarnation
  · exact hlast
  · rw [if_neg hlast] at h
    exact absurd h (Option.some_ne_none _)

/-- Claims applied in order leave the table with the reported ones recorded, and nothing else. -/
theorem applyAll_cases (now : Clock) (m : Membership) (claims : List Change) :
    (∃ effects, applyAll now m claims = .done (m.putAll effects) effects) ∨
    (∃ m', m'.localIncarnation = lastIncarnation ∧ applyAll now m claims = .exhausted m') := by
  -- on the claims, for every clock and table: each one leaves other ones to the rest
  induction claims generalizing now m with
  | nil => exact Or.inl ⟨[], rfl⟩
  | cons c rest ih =>
      rw [applyAll]
      split
      · exact ih now.next m
      · rcases apply_cases now m c with happly | ⟨effect, happly⟩ | ⟨hfresh, happly⟩
        · rw [happly, Attempt.andThen_done]
          rcases ih now.next m with ⟨effects, hrest⟩ | ⟨m', hlast, hrest⟩
          · exact Or.inl ⟨effects, by rw [hrest]; rfl⟩
          · exact Or.inr ⟨m', hlast, by rw [hrest]; rfl⟩
        · rw [happly, Attempt.andThen_done]
          rcases ih now.next (m.put effect.toMember) with ⟨effects, hrest⟩ | ⟨m', hlast, hrest⟩
          · exact Or.inl ⟨effect :: effects, by rw [hrest]; rfl⟩
          · exact Or.inr ⟨m', hlast, by rw [hrest]; rfl⟩
        · rw [happly, Attempt.andThen_exhausted]
          exact Or.inr ⟨m, localIncarnation_of_freshIncarnation? hfresh, rfl⟩

/-- The end of a batch does not change the rows. -/
theorem rows_conclude (m : Membership) (effects : List Change) :
    (m.conclude effects).rows = m.rows := by
  rw [conclude]
  split
  · rfl
  · rfl

theorem reported_applyBatch (now : Clock) (m : Membership) (claims : List Change) :
    m.Reported (applyBatch now m claims) := by
  rw [applyBatch]
  rcases applyAll_cases now m claims with ⟨effects, hall⟩ | ⟨m', hlast, hall⟩
  · rw [hall, Attempt.andThen_done]
    exact rows_conclude (m.putAll effects) effects
  · rw [hall, Attempt.andThen_exhausted]
    exact hlast

/-- **Taking in claims reports every row it changes.** -/
theorem reported_update (m : Membership) (now : Clock) (claims : List Change)
    (localAlive : Bool) : m.Reported (m.update now claims localAlive) := by
  rw [update]
  split
  · exact reported_applyBatch now m claims
  · exact rfl

theorem reported_assert (m : Membership) (now : Clock) (address : String) (status : Status)
    (incarnation : UInt64) : m.Reported (m.assert now address status incarnation) :=
  reported_update m now _ _

/-- What is replayed when the gate opens is reported, too. -/
theorem reported_openGate (m : Membership) (now : Clock) : m.Reported (m.openGate now) := by
  rw [openGate]
  show Reported m (if _ then _ else _)
  split
  · exact rfl
  · -- the gate is open before the replay, and rows do not depend on it
    have hupdate := reported_update { m with gate := .opened } now m.gate.stash false
    cases hout : ({ m with gate := .opened } : Membership).update now m.gate.stash false with
    | done m' effects =>
        rw [hout] at hupdate
        have hrows : m'.rows = (({ m with gate := .opened } : Membership).putAll effects).rows :=
          hupdate
        show m'.rows = _
        rw [hrows, putAll_gate]
    | exhausted m' =>
        rw [hout] at hupdate
        exact hupdate

/-! ## Adopting snapshots -/

/-- Adopting one entry writes what it reports. -/
theorem adoptOne_eq (m : Membership) (c : Change) :
    (m.adoptOne c).1 = m.putAll (m.adoptOne c).2.toList := by
  rw [adoptOne]
  split
  · rfl
  · split
    · rfl
    · rfl

/-- Adopted claims leave the table with the reported ones recorded, and nothing else. -/
theorem adoptAll_eq (m : Membership) (claims : List Change) :
    (m.adoptAll claims).1 = m.putAll (m.adoptAll claims).2 := by
  induction claims generalizing m with
  | nil => rfl
  | cons c rest ih =>
      -- the report of the whole is that of the first claim, then that of the rest
      show ((m.adoptOne c).1.adoptAll rest).1 =
        m.putAll ((m.adoptOne c).2.toList ++ ((m.adoptOne c).1.adoptAll rest).2)
      rw [putAll_append, ← adoptOne_eq, ih]

/-- A gate that lost its stash is a gate. -/
theorem releaseStash_eq (m : Membership) (consumed : Bool) :
    ∃ gate, m.releaseStash consumed = { m with gate := gate } := by
  rw [releaseStash]
  cases hgate : m.gate with
  | opened => exact ⟨m.gate, rfl⟩
  | closed held =>
      cases consumed with
      | false => exact ⟨m.gate, rfl⟩
      | true => exact ⟨.closed [], rfl⟩

/-- **Adopting snapshots reports every row it changes.** -/
theorem reported_adopt (m : Membership) (snapshots : List Snapshot) :
    m.Reported (.done (m.adopt snapshots).1 (m.adopt snapshots).2) := by
  obtain ⟨gate, hgate⟩ :=
    releaseStash_eq m (Snapshot.reconcile m.here snapshots m.gate.stash).consumedStash
  show ((m.releaseStash _).adoptAll _).1.rows = (m.putAll ((m.releaseStash _).adoptAll _).2).rows
  rw [adoptAll_eq, hgate, putAll_gate]

end GossipRing.Membership
