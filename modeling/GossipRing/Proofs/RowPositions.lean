import GossipRing.IndexedTable
import GossipRing.Proofs.TableRuns

/-!
# The index of a table is exact

Toward: nobody's row is overwritten for somebody else's. A new row moves up all rows behind it, and
a claim writes to a position that was looked up before, so one position that is off would let news
about one member fall on another.

* **`Exact`** — the index gives position `i` for an address exactly if row `i` has that address. A
  row that is inserted anywhere keeps this (`Exact.insertAt`), as does one that is overwritten.
* **`Exact.find?_eq`** — what the index finds is what a search of the table finds, so a table with
  an exact index is a `Membership` (`Agrees`), operation by operation.
* **`index_exact`** — the index after any operations, each completed or stopped.
-/

namespace GossipRing.IndexedTable

/-! ## Exact indexes -/

/-- The index gives a position for an address exactly if the row there has that address. -/
def Exact (x : IndexedTable) : Prop :=
  ∀ address i, x.index[address]? = some i ↔ (x.table.rows[i]?).map Member.address = some address

section

variable {x : IndexedTable} {row : Member} {address : String} {i position : Nat}

theorem exact_empty (here : String) (hash : HashFunction) (chance : Chance) :
    (empty here hash chance).Exact := by
  intro address i
  simp [empty, Membership.empty]

/-- The index does not depend on anything but the addresses of the rows. -/
theorem Exact.congr {m : Membership} (h : x.Exact)
    (hrows : m.rows.map Member.address = x.table.rows.map Member.address) :
    Exact { x with table := m } := by
  intro address i
  show x.index[address]? = some i ↔ (m.rows[i]?).map Member.address = some address
  rw [← List.getElem?_map, hrows, List.getElem?_map]
  exact h address i

/-- One address has one position, so it has one row. -/
theorem Exact.distinct (h : x.Exact) : x.table.Distinct := by
  rw [Membership.Distinct, List.nodup_iff_getElem?_ne_getElem?]
  intro i j hij hj heq
  rw [List.length_map] at hj
  rw [List.getElem?_map, List.getElem?_map] at heq
  have hat : (x.table.rows[j]?).map Member.address = some x.table.rows[j].address := by
    rw [List.getElem?_eq_getElem hj, Option.map_some]
  have hi := (h _ i).mpr (heq.trans hat)
  have hj := (h _ j).mpr hat
  exact absurd (Option.some.inj (hi.symm.trans hj)) (Nat.ne_of_lt hij)

/-- A position that the index gives has a row, and it is the row of the address. -/
theorem Exact.exists_row (h : x.Exact) (hi : x.index[address]? = some i) :
    ∃ row, x.table.rows[i]? = some row ∧ row.address = address :=
  Option.map_eq_some_iff.mp ((h address i).mp hi)

/-- The row at a position that the index gives is the one that a search finds. -/
theorem Exact.row?_eq (h : x.Exact) (hi : x.index[address]? = some i)
    (hrow : x.table.rows[i]? = some row) : x.table.row? address = some row := by
  obtain ⟨row', hrow', haddress⟩ := h.exists_row hi
  obtain rfl : row' = row := Option.some.inj (hrow'.symm.trans hrow)
  exact (Membership.row?_eq_some_iff h.distinct).mpr ⟨List.mem_of_getElem? hrow, haddress⟩

/-- An address without a position has no row. -/
theorem Exact.row?_eq_none (h : x.Exact) (hi : x.index[address]? = none) :
    x.table.row? address = none := by
  refine Option.eq_none_iff_forall_not_mem.mpr fun row hrow => ?_
  obtain ⟨hmem, haddress⟩ := Membership.mem_of_row?_eq_some hrow
  obtain ⟨i, hi'⟩ := List.getElem?_of_mem hmem
  have hsome := (h address i).mpr (by rw [hi', Option.map_some, haddress])
  exact nomatch hi.symm.trans hsome

/-- **The index finds what a search of the table finds.** -/
theorem Exact.find?_eq (h : x.Exact) (address : String) : x.find? address = x.table.row? address := by
  rw [find?]
  cases hi : x.index[address]? with
  | none => exact (h.row?_eq_none hi).symm
  | some i =>
      obtain ⟨row, hrow, -⟩ := h.exists_row hi
      exact hrow.trans (h.row?_eq hi hrow).symm

theorem Exact.localIncarnation_eq (h : x.Exact) :
    x.localIncarnation = x.table.localIncarnation := by
  rw [localIncarnation, h.find?_eq]
  rfl

/-- A rebuttal through the index carries the same incarnation as one by search. -/
theorem Exact.freshIncarnation?_eq (h : x.Exact) (now : Clock) :
    x.freshIncarnation? now = x.table.freshIncarnation? now := by
  rw [freshIncarnation?, Membership.freshIncarnation?, h.localIncarnation_eq]

/-! ## Inserting a row -/

/-- The pairs that an insertion writes are exactly the addresses from the position on, each with its
    place. -/
theorem mem_places {rows : List Member} :
    (address, i) ∈ places rows position ↔
      position ≤ i ∧ (rows[i]?).map Member.address = some address := by
  rw [places, List.mem_iff_getElem?]
  simp only [List.getElem?_map, List.getElem?_drop, List.getElem?_zipIdx, Option.map_map,
    Option.map_eq_some_iff, Function.comp_apply, Prod.mk.injEq, Nat.zero_add]
  constructor
  · rintro ⟨k, row, hrow, haddress, rfl⟩
    exact ⟨Nat.le_add_right position k, row, hrow, haddress⟩
  · rintro ⟨hle, row, hrow, haddress⟩
    exact ⟨i - position, row, by rw [Nat.add_sub_cancel' hle, hrow], haddress,
      Nat.add_sub_cancel' hle⟩

/-- The addresses that an insertion indexes anew are those from the position on, in the order of the
    rows. -/
theorem fst_places (rows : List Member) (position : Nat) :
    (places rows position).map Prod.fst = (rows.map Member.address).drop position := by
  rw [places, List.map_map]
  show (rows.zipIdx.drop position).map (Member.address ∘ Prod.fst) = _
  rw [← List.map_map, List.map_drop, List.zipIdx_map_fst, List.map_drop]

/-- Different rows have different addresses, so a row is told once. -/
theorem pairwise_places {rows : List Member} (h : (rows.map Member.address).Nodup) :
    (places rows position).Pairwise fun a b => (a.1 == b.1) = false := by
  have hdrop : ((places rows position).map Prod.fst).Nodup := by
    rw [fst_places]
    exact h.sublist (List.drop_sublist _ _)
  exact (List.pairwise_map.mp hdrop).imp fun hne => beq_false_of_ne hne

/-- Two positions of one address are the same. -/
theorem position_unique {rows : List Member} (h : (rows.map Member.address).Nodup) {j : Nat}
    (hi : (rows[i]?).map Member.address = some address)
    (hj : (rows[j]?).map Member.address = some address) : i = j := by
  rw [← List.getElem?_map] at hi hj
  obtain ⟨hlt, -⟩ := List.getElem?_eq_some_iff.mp hi
  exact (List.getElem?_inj hlt h).mp (hi.trans hj.symm)

/-- **A row inserted anywhere leaves the index exact**, if its address has no row yet: the rows
    behind it are told anew, and those before it have not moved. -/
theorem Exact.insertAt (h : x.Exact) (hfresh : x.index[row.address]? = none)
    (hposition : position ≤ x.table.rows.length) : (x.insertAt position row).Exact := by
  have hnone : row.address ∉ x.table.rows.map Member.address := by
    rw [← Membership.isSome_row?_iff, h.row?_eq_none hfresh]
    exact Bool.false_ne_true
  have hdistinct := h.distinct.insertIdx hnone hposition
  intro address i
  show (x.index.insertMany (places _ position))[address]? = some i ↔
    ((x.table.rows.insertIdx position row)[i]?).map Member.address = some address
  by_cases hmoved : ∃ j, (address, j) ∈ places (x.table.rows.insertIdx position row) position
  · -- a row that stands at or behind the position: its place was written anew
    obtain ⟨j, hj⟩ := hmoved
    rw [Std.HashMap.getElem?_insertMany_list_of_mem BEq.rfl (pairwise_places hdistinct) hj]
    have hat := (mem_places.mp hj).2
    constructor
    · intro heq
      rw [← Option.some.inj heq]
      exact hat
    · intro hi
      rw [position_unique hdistinct hat hi]
  · -- no row from there on has the address, so it is before the new row that one has it
    have hbefore : ∀ j, ((x.table.rows.insertIdx position row)[j]?).map Member.address =
        some address → j < position := by
      intro j hj
      by_contra hge
      exact hmoved ⟨j, mem_places.mpr ⟨Nat.le_of_not_lt hge, hj⟩⟩
    have hkept : (places (x.table.rows.insertIdx position row) position |>.map Prod.fst).contains
        address = false := by
      rw [List.contains_eq_mem, decide_eq_false_iff_not, List.mem_map]
      rintro ⟨⟨_, j⟩, hj, rfl⟩
      exact hmoved ⟨j, hj⟩
    rw [Std.HashMap.getElem?_insertMany_list_of_contains_eq_false hkept, h address i]
    constructor
    · intro hold
      have hlt : i < position := by
        by_contra hge
        have hup := hbefore (i + 1)
        rw [List.getElem?_insertIdx_of_gt (by omega)] at hup
        exact hge (Nat.lt_of_succ_lt (hup hold))
      rw [List.getElem?_insertIdx_of_lt hlt]
      exact hold
    · intro hnew
      rw [List.getElem?_insertIdx_of_lt (hbefore i hnew)] at hnew
      exact hnew

/-- A new row is found wherever it was inserted, and every other address has the row it had. -/
theorem Exact.find?_insertAt (h : x.Exact) (hfresh : x.index[row.address]? = none)
    (hposition : position ≤ x.table.rows.length) (address : String) :
    (x.insertAt position row).find? address =
      if address = row.address then some row else x.find? address := by
  have hnone := List.find?_eq_none.mp (h.row?_eq_none hfresh)
  rw [(h.insertAt hfresh hposition).find?_eq, h.find?_eq]
  show (x.table.rows.insertIdx position row).find? _ = _
  rw [Membership.find?_insertIdx _ _ _ _ hposition]
  · simp only [eq_comm (a := row.address), decide_eq_true_eq]
    rfl
  · intro hrow r hr
    rw [← of_decide_eq_true hrow]
    exact Bool.eq_false_of_not_eq_true (hnone r hr)

/-! ## Overwriting a row -/

/-- Where addresses are distinct, the row of an address is overwritten by writing to its position. -/
theorem overwriteRow_eq_set {rows : List Member} (h : (rows.map Member.address).Nodup)
    (hi : (rows[i]?).map Member.address = some row.address) :
    Membership.overwriteRow row rows = rows.set i row := by
  refine List.ext_getElem? fun j => ?_
  rw [Membership.overwriteRow, List.getElem?_map, List.getElem?_set]
  obtain ⟨old, hold, haddress⟩ := Option.map_eq_some_iff.mp hi
  have hlt : i < rows.length := (List.getElem?_eq_some_iff.mp hold).1
  by_cases heq : i = j
  · rw [if_pos heq, if_pos hlt, ← heq, hold, Option.map_some, if_pos haddress]
  · rw [if_neg heq]
    cases hj : rows[j]? with
    | none => rfl
    | some r =>
        refine congrArg some (if_neg fun hsame => heq ?_)
        exact position_unique h hi (by rw [hj, Option.map_some, hsame])

/-- A row put into the table is put where a search would have put it. -/
theorem Exact.table_put (h : x.Exact) (row : Member) : (x.put row).table = x.table.put row := by
  rw [put, Membership.put]
  cases hi : x.index[row.address]? with
  | none =>
      rw [h.row?_eq_none hi]
      rfl
  | some i =>
      obtain ⟨old, hold, haddress⟩ := h.exists_row hi
      rw [h.row?_eq hi hold]
      show { x.table with rows := x.table.rows.set i row } = _
      rw [overwriteRow_eq_set h.distinct ((h _ i).mp hi)]

/-- Writing one row keeps the index exact, whether the row is new or takes the place of an old one. -/
theorem Exact.put (h : x.Exact) (row : Member) : (x.put row).Exact := by
  rw [IndexedTable.put]
  cases hi : x.index[row.address]? with
  | none =>
      have hbound := Nat.le_of_lt_succ (x.table.chance.draw_lt (Nat.succ_pos x.table.rows.length))
      exact Exact.insertAt (x := { x with table := _ }) (h.congr rfl) hi hbound
  | some i =>
      refine h.congr ?_
      show (x.table.rows.set i row).map Member.address = _
      rw [← overwriteRow_eq_set h.distinct ((h _ i).mp hi), Membership.address_overwriteRow]

/-- A status and an incarnation are recorded by putting the row of the same address. -/
theorem Exact.amend_eq (h : x.Exact) (hi : x.index[address]? = some i) (status : Status)
    (incarnation : UInt64) : x.amend i status incarnation = x.put ⟨address, status, incarnation⟩ := by
  obtain ⟨old, hold, haddress⟩ := h.exists_row hi
  have hput : x.put ⟨address, status, incarnation⟩ =
      { x with table := { x.table with rows := x.table.rows.set i ⟨address, status, incarnation⟩ } } := by
    rw [IndexedTable.put]
    simp only [hi]
  rw [hput, amend, List.modify_eq_set_getElem?, hold]
  subst haddress
  rfl

end

/-! ## A table with an exact index is a table -/

/-- The index is exact, and no row is about nobody. -/
structure Sound (x : IndexedTable) : Prop where
  exact : x.Exact
  named : x.table.Named

/-- Two outcomes are the same but for the index, which is exact. -/
structure Agrees {α : Type} (first : Attempt IndexedTable α) (second : Attempt Membership α) :
    Prop where
  same : first.mapState table = second
  sound : first.state.Sound

/-- Two completed attempts agree exactly when they leave the same rows, return the same and the index
    is sound. -/
theorem agrees_done_iff {α : Type} {x : IndexedTable} {m : Membership} {a b : α} :
    Agrees (.done x a) (.done m b) ↔ x.table = m ∧ a = b ∧ x.Sound := by
  constructor
  · rintro ⟨hsame, hsound⟩
    obtain ⟨htable, ha⟩ := Attempt.done.inj hsame
    exact ⟨htable, ha, hsound⟩
  · rintro ⟨rfl, rfl, hsound⟩
    exact ⟨rfl, hsound⟩

namespace Agrees

variable {α β : Type} {first : Attempt IndexedTable α} {second : Attempt Membership α}

/-- Attempts that agree can be continued by steps that agree on every sound index. -/
theorem andThen {next : IndexedTable → α → Attempt IndexedTable β}
    {next' : Membership → α → Attempt Membership β} (h : Agrees first second)
    (hnext : ∀ x a, x.Sound → Agrees (next x a) (next' x.table a)) :
    Agrees (first.andThen next) (second.andThen next') := by
  obtain ⟨rfl, hsound⟩ := h
  cases first with
  | done x a => exact hnext x a hsound
  | exhausted x => exact ⟨rfl, hsound⟩

/-- Agreement does not depend on what is made of the result. -/
theorem map (f : α → β) (h : Agrees first second) : Agrees (first.map f) (second.map f) := by
  obtain ⟨rfl, hsound⟩ := h
  refine ⟨?_, (Attempt.state_map f first).symm ▸ hsound⟩
  cases first <;> rfl

end Agrees

section

variable {now : Clock} {x : IndexedTable} {c : Change}

/-- A change of anything but the rows keeps the index. -/
theorem Sound.congr {m : Membership} (h : x.Sound) (hrows : m.rows = x.table.rows) :
    Sound { x with table := m } where
  exact := h.exact.congr (congrArg (List.map Member.address) hrows)
  named := fun row hrow => h.named row (hrows ▸ hrow)

/-- Writing a row with a name keeps the index sound. -/
theorem Sound.put {row : Member} (h : x.Sound) (hnamed : row.address ≠ "") :
    (x.put row).Sound where
  exact := h.exact.put row
  named := by
    rw [h.exact.table_put]
    intro r hr
    rcases Membership.mem_rows_put hr with rfl | hr
    · exact hnamed
    · exact h.named r hr

/-- Something done without a row being touched. -/
theorem Sound.agrees_done {α : Type} (h : x.Sound) (a : α) :
    Agrees (.done x a) (.done x.table a) := ⟨rfl, h⟩

/-- A row put on both sides. -/
theorem Sound.agrees_put {α : Type} {row : Member} (h : x.Sound) (hnamed : row.address ≠ "")
    (a : α) : Agrees (.done (x.put row) a) (.done (x.table.put row) a) :=
  ⟨congrArg (Attempt.done · a) (h.exact.table_put row), h.put hnamed⟩

/-! ## Applying claims -/

/-- One claim does to the indexed table what it does to the searched one, and it stops in one where it
    stops in the other. -/
theorem Sound.agrees_apply (h : x.Sound) (hnamed : ¬c.isMalformed) :
    Agrees (apply now x c) (Membership.apply now x.table c) := by
  have hname : c.address ≠ "" := fun hempty => hnamed (String.isEmpty_iff.mpr hempty)
  rw [apply, Membership.apply]
  cases hi : x.index[c.address]? with
  | none =>
      rw [h.exact.row?_eq_none hi]
      dsimp only
      split
      · exact h.agrees_done none
      · exact h.agrees_put hname (some c)
  | some i =>
      obtain ⟨row, hrow, haddress⟩ := h.exact.exists_row hi
      rw [h.exact.row?_eq hi hrow]
      dsimp only
      rw [hrow]
      dsimp only
      rw [applyAt]
      split
      · exact h.agrees_done none
      · split
        · -- the local member rebuts: both ask for the same fresh incarnation, so both stop or neither
          next hdown =>
          rw [h.exact.freshIncarnation?_eq]
          have hlocal := ((Membership.callsLocalDown_iff (h.exact.row?_eq hi hrow)).mp hdown).1
          cases x.table.freshIncarnation? now with
          | none => exact ⟨rfl, h⟩
          | some inc =>
              dsimp only
              rw [h.exact.amend_eq hi, hlocal]
              exact h.agrees_put (hlocal ▸ hname) _
        · split
          · rw [h.exact.amend_eq hi]
            exact h.agrees_put hname (some c)
          · exact h.agrees_done none

/-- A list of claims acts alike on both tables. The index is sound after each claim, which is what the
    next one needs. -/
theorem Sound.agrees_applyAll (h : x.Sound) (claims : List Change) :
    Agrees (applyAll now x claims) (Membership.applyAll now x.table claims) := by
  induction claims generalizing now x with
  | nil => exact h.agrees_done []
  | cons c rest ih =>
      rw [applyAll, Membership.applyAll]
      split
      · exact ih h
      · next hnamed =>
        exact (h.agrees_apply hnamed).andThen fun x effect hx => (ih hx).map _

theorem Sound.agrees_applyBatch (h : x.Sound) (claims : List Change) :
    Agrees (applyBatch now x claims) (Membership.applyBatch now x.table claims) :=
  (h.agrees_applyAll claims).andThen fun x effects hx =>
    ⟨rfl, hx.congr (Membership.rows_conclude x.table effects)⟩

theorem Sound.agrees_update (h : x.Sound) (claims : List Change) (localAlive : Bool) :
    Agrees (x.update now claims localAlive) (x.table.update now claims localAlive) := by
  rw [update, Membership.update]
  split
  · exact h.agrees_applyBatch claims
  · exact ⟨rfl, h.congr rfl⟩

theorem Sound.agrees_assert (h : x.Sound) (address : String) (status : Status)
    (incarnation : UInt64) :
    Agrees (x.assert now address status incarnation)
      (x.table.assert now address status incarnation) := by
  rw [assert, Membership.assert, h.exact.localIncarnation_eq]
  exact h.agrees_update _ _

theorem Sound.agrees_openGate (h : x.Sound) :
    Agrees (x.openGate now) (x.table.openGate now) := by
  rw [openGate, Membership.openGate]
  have hopen : Sound { x with table := { x.table with gate := .opened } } := h.congr rfl
  dsimp only
  split
  · exact hopen.agrees_done []
  · exact hopen.agrees_update _ false

/-! ## Joining -/

/-- A claim tells nothing new exactly if its member's row is there as the claim has it. -/
theorem Sound.differs_eq_false_iff (h : x.Sound) (c : Change) :
    x.differs c = false ↔ x.table.row? c.address = some c.toMember := by
  rw [differs, h.exact.find?_eq]
  cases hrow : x.table.row? c.address with
  | none => simp
  | some row =>
      have haddress : row.address = c.address := (Membership.mem_of_row?_eq_some hrow).2
      obtain ⟨address, status, incarnation⟩ := row
      simp [Change.toMember, show address = c.address from haddress]

/-- An entry of a snapshot is skipped or written by both tables alike. -/
theorem Sound.agrees_adoptOne (h : x.Sound) (c : Change) :
    Agrees (.done (x.adoptOne c).1 (x.adoptOne c).2)
      (.done (x.table.adoptOne c).1 (x.table.adoptOne c).2) := by
  rw [adoptOne, Membership.adoptOne]
  by_cases hleft : c.address = x.table.here ∨ c.isMalformed
  · rw [if_pos hleft, if_pos hleft]
    exact h.agrees_done none
  · rw [if_neg hleft, if_neg hleft]
    cases hdiffers : x.differs c with
    | false =>
        rw [if_pos ((h.differs_eq_false_iff c).mp hdiffers)]
        exact h.agrees_done none
    | true =>
        have hnew : ¬x.table.row? c.address = some c.toMember := fun hrow =>
          Bool.noConfusion (((h.differs_eq_false_iff c).mpr hrow).symm.trans hdiffers)
        rw [if_pos rfl, if_neg hnew]
        refine h.agrees_put (fun hempty => hleft (Or.inr ?_)) (some c)
        exact String.isEmpty_iff.mpr hempty

theorem Sound.agrees_adoptAll (h : x.Sound) (claims : List Change) :
    Agrees (.done (x.adoptAll claims).1 (x.adoptAll claims).2)
      (.done (x.table.adoptAll claims).1 (x.table.adoptAll claims).2) := by
  induction claims generalizing x with
  | nil => exact h.agrees_done []
  | cons c rest ih =>
      obtain ⟨htable, heffect, hsound⟩ := agrees_done_iff.mp (h.agrees_adoptOne c)
      -- the rest begins where the first claim has left both tables
      obtain ⟨htable', heffects, hsound'⟩ := agrees_done_iff.mp (ih hsound)
      rw [htable] at htable' heffects
      exact agrees_done_iff.mpr
        ⟨htable', congrArg₂ (fun effect effects => effect.toList ++ effects) heffect heffects, hsound'⟩

/-- **Adopting snapshots** does to both tables the same. -/
theorem Sound.agrees_adopt (h : x.Sound) (snapshots : List Snapshot) :
    Agrees (.done (x.adopt snapshots).1 (x.adopt snapshots).2)
      (.done (x.table.adopt snapshots).1 (x.table.adopt snapshots).2) := by
  have hrows (consumed : Bool) : (x.table.releaseStash consumed).rows = x.table.rows :=
    (Membership.alike_releaseStash x.table consumed).rows
  obtain ⟨htable, heffects, hsound⟩ := agrees_done_iff.mp ((h.congr (hrows _)).agrees_adoptAll
    (Snapshot.reconcile x.table.here snapshots x.table.gate.stash).changes)
  refine agrees_done_iff.mpr ⟨?_, heffects, hsound.congr rfl⟩
  rw [adopt, Membership.adopt]
  dsimp only
  rw [htable, heffects]

end

/-! ## Any operations -/

/-- What an operation does at some reading of the clock, and the claims that took effect. -/
def perform (now : Clock) (x : IndexedTable) :
    Membership.Op → Attempt IndexedTable (List Change)
  | .update claims localAlive => x.update now claims localAlive
  | .assert address status incarnation => x.assert now address status incarnation
  | .adopt snapshots => .done (x.adopt snapshots).1 (x.adopt snapshots).2
  | .openGate => x.openGate now

/-- Every operation acts alike on both tables. -/
theorem Sound.agrees_perform {x : IndexedTable} (h : x.Sound) (now : Clock) (op : Membership.Op) :
    Agrees (x.perform now op) (op.apply now x.table) := by
  cases op with
  | update claims localAlive => exact h.agrees_update claims localAlive
  | assert address status incarnation => exact h.agrees_assert address status incarnation
  | adopt snapshots => exact h.agrees_adopt snapshots
  | openGate => exact h.agrees_openGate

theorem sound_empty (here : String) (hash : HashFunction) (chance : Chance) :
    (empty here hash chance).Sound where
  exact := exact_empty here hash chance
  named := fun _ hrow => absurd hrow List.not_mem_nil

/-- Operations one after the other, whether each is completed or stops. -/
def after (x : IndexedTable) : List (Clock × Membership.Op) → IndexedTable
  | [] => x
  | (now, op) :: rest => (x.perform now op).state.after rest

/-- A run of operations on a table that is searched. -/
def searched (m : Membership) : List (Clock × Membership.Op) → Membership
  | [] => m
  | (now, op) :: rest => searched (op.apply now m).state rest

/-- **What one operation keeps, all do.** -/
theorem Sound.after {x : IndexedTable} (h : x.Sound) (ops : List (Clock × Membership.Op)) :
    (x.after ops).Sound ∧ (x.after ops).table = searched x.table ops := by
  induction ops generalizing x with
  | nil => exact ⟨h, rfl⟩
  | cons call rest ih =>
      obtain ⟨now, op⟩ := call
      obtain ⟨hsame, hsound⟩ := h.agrees_perform now op
      obtain ⟨hlast, htable⟩ := ih hsound
      refine ⟨hlast, htable.trans ?_⟩
      rw [searched, ← hsame, Attempt.state_mapState]

/-- **The index of a table is exact.** After any operations on an empty table, in any order, at any
    times and with any positions drawn for new rows, each operation completed or stopped at the
    largest incarnation: the index gives position `i` for an address exactly if row `i` has that
    address. So every address has at most one row, looking an address up gives that row and
    nothing else, and no row has the empty address. A member that has no row yet can be inserted at
    any position: it is found there, every other address has the row it had, and the index is
    still exact. This is what a new member does, at a position that is drawn. And reading and
    writing rows through the index does what searching the table does: the table, and the outcome
    of whatever is done next, are the same. -/
theorem index_exact (here : String) (hash : HashFunction) (chance : Chance)
    (ops : List (Clock × Membership.Op)) :
    let x := (empty here hash chance).after ops
    x.Exact ∧
      (x.table.rows.map Member.address).Nodup ∧
      (∀ address row, x.find? address = some row ↔ row ∈ x.table.rows ∧ row.address = address) ∧
      (∀ row ∈ x.table.rows, row.address ≠ "") ∧
      (∀ row position, x.find? row.address = none → position ≤ x.table.rows.length →
        (x.insertAt position row).table.rows = x.table.rows.insertIdx position row ∧
          (x.insertAt position row).Exact ∧
          ∀ address, (x.insertAt position row).find? address =
            if address = row.address then some row else x.find? address) ∧
      (∀ row, x.find? row.address = none → ∃ position ≤ x.table.rows.length, ∃ chance,
        x.put row = insertAt { x with table := { x.table with chance := chance } } position row) ∧
      x.table = searched (.empty here hash chance) ops ∧
      ∀ now op, (x.perform now op).mapState table = op.apply now x.table := by
  intro x
  obtain ⟨hsound, htable⟩ := (sound_empty here hash chance).after ops
  have hexact : x.Exact := hsound.exact
  -- an address that is not found has no place in the index either, for a place would lead to a row
  have hfresh : ∀ address, x.find? address = none → x.index[address]? = none := by
    intro address hnone
    refine Option.eq_none_iff_forall_ne_some.mpr fun i hi => ?_
    obtain ⟨row, hrow, -⟩ := hexact.exists_row hi
    rw [hexact.find?_eq, hexact.row?_eq hi hrow] at hnone
    exact nomatch hnone
  refine ⟨hexact, hexact.distinct, ?_, hsound.named, ?_, ?_, htable, ?_⟩
  · intro address row
    rw [hexact.find?_eq]
    exact Membership.row?_eq_some_iff hexact.distinct
  · intro row position hnone hposition
    have hnone := hfresh row.address hnone
    exact ⟨rfl, hexact.insertAt hnone hposition, hexact.find?_insertAt hnone hposition⟩
  · intro row hnone
    have hbound := x.table.chance.draw_lt (Nat.succ_pos x.table.rows.length)
    refine ⟨_, Nat.le_of_lt_succ hbound, (x.table.chance.draw (x.table.rows.length + 1)).2, ?_⟩
    rw [put, hfresh row.address hnone]
  · intro now op
    exact (hsound.agrees_perform now op).same

end GossipRing.IndexedTable
