import GossipRing.Proofs.TableRuns

/-!
# Exchanging whole tables

Toward: two nodes agree once each has heard the whole table of the other, but for what precedence
leaves apart.

* **`row?_update_snapshot`** — hearing a whole table comes down to one claim about each member that
  the table has a row for (`claimsAbout_snapshot`).
* **`Cornered`** — the table says that the node is down, which has no incarnation left to deny it at.
  **`exists_update_snapshot_iff`** — every other table is taken in.
* **`Divided`** — one of the two nodes records that a member departed, and its row outlasts that of
  the other. There the nodes keep their rows, and nowhere else do they differ
  (`agree_of_not_divided`, `keep_of_divided`).
-/

namespace GossipRing.Membership

/-! ## Whole tables as claims -/

section

variable {m m' : Membership} {claims effects : List Change} {address : String}

/-- Where rows are distinct, at most one is about an address. -/
theorem filter_address (hm : m.Distinct) (address : String) :
    (m.rows.filter fun row => row.address = address) = (m.row? address).toList := by
  have hdistinct : (m.rows.map Member.address).Nodup := hm
  rw [row?]
  generalize m.rows = rows at hdistinct
  induction rows with
  | nil => rfl
  | cons row rest ih =>
      rw [List.map_cons, List.nodup_cons] at hdistinct
      obtain ⟨hfresh, hrest⟩ := hdistinct
      by_cases habout : row.address = address
      · have hnone : (rest.filter fun row => row.address = address) = [] := by
          rw [List.filter_eq_nil_iff]
          intro other hother heq
          rw [habout, ← of_decide_eq_true heq] at hfresh
          exact hfresh (List.mem_map_of_mem hother)
        rw [List.filter_cons_of_pos (by simpa using habout), hnone,
          List.find?_cons_of_pos (by simpa using habout)]
        rfl
      · rw [List.filter_cons_of_neg (by simpa using habout),
          List.find?_cons_of_neg (by simpa using habout), ih hrest]

/-- A whole table makes one claim about each address that has a row. -/
theorem claimsAbout_snapshot (hdistinct : m.Distinct) (hnamed : m.Named) (now : Clock)
    (address : String) :
    claimsAbout address (m.snapshot now) =
      (m.row? address).toList.map fun row =>
        Change.ofMember row m.here m.localIncarnation now.reading := by
  rw [← filter_address hdistinct, claimsAbout, snapshot, List.filter_map]
  congr 1
  refine List.filter_congr fun row hrow => ?_
  have hname : row.address.isEmpty = false := by
    rw [Bool.eq_false_iff]
    exact fun hempty => hnamed row hrow (String.isEmpty_iff.mp hempty)
  show (!row.address.isEmpty && decide (row.address = address)) = _
  rw [hname]
  rfl

/-- The claims of a whole table are about different members. -/
theorem snapshot_pairwise (hdistinct : m.Distinct) (now : Clock) :
    (m.snapshot now).Pairwise fun c d => c.address ≠ d.address := by
  have hpairwise : m.rows.Pairwise fun r s => r.address ≠ s.address := List.pairwise_map.mp hdistinct
  exact List.pairwise_map.mpr hpairwise

/-- Taking in claims decides the row of another member by the claims about it. -/
theorem row?_update {now : Clock} {localAlive : Bool} (hready : m.isReady)
    (h : m.update now claims localAlive = .done m' effects) (hremote : address ≠ m.here) :
    m'.row? address = (claimsAbout address claims).foldl takeClaim (m.row? address) := by
  obtain ⟨m₁, happlied, halike⟩ := update_eq_done h
  rw [hready, Bool.true_or, if_pos rfl] at happlied
  rw [halike.row?, happlied.row?_eq hremote]

/-- **Hearing a whole table is hearing its row of each member.** -/
theorem row?_update_snapshot {other : Membership} {now taken : Clock} {localAlive : Bool}
    (hready : m.isReady) (hdistinct : other.Distinct) (hnamed : other.Named)
    (h : m.update now (other.snapshot taken) localAlive = .done m' effects)
    (hremote : address ≠ m.here) :
    m'.row? address =
      match other.row? address with
      | none => m.row? address
      | some row => takeClaim (m.row? address)
          (Change.ofMember row other.here other.localIncarnation taken.reading) := by
  rw [row?_update hready h hremote, claimsAbout_snapshot hdistinct hnamed]
  cases other.row? address with
  | none => rfl
  | some row => rfl

/-- The other table says that the node is down, and no incarnation is left to deny it at. -/
def Cornered (m other : Membership) : Prop :=
  m.localIncarnation = lastIncarnation ∧ ∃ row, other.row? m.here = some row ∧ row.status.IsDown

/-- The claim of a whole table that the node refutes comes from the row of the node. -/
theorem exists_row?_of_refutes {other : Membership} {c : Change} {taken : Clock}
    (hdistinct : other.Distinct) (hc : c ∈ other.snapshot taken) (hrefutes : m.Refutes c) :
    ∃ row, other.row? m.here = some row ∧ row.status.IsDown := by
  obtain ⟨row, hrow, rfl⟩ := List.mem_map.mp hc
  have hlocal : row.address = m.here := hrefutes.1
  exact ⟨row, (row?_eq_some_iff hdistinct).mpr ⟨hrow, hlocal⟩, hrefutes.2.1⟩

/-- **A whole table is taken in exactly if the node is not cornered by it.** -/
theorem exists_update_snapshot_iff {other : Membership} (hready : m.isReady)
    (hdistinct : other.Distinct) (hnamed : other.Named) (now taken : Clock) (localAlive : Bool) :
    (∃ m' effects, m.update now (other.snapshot taken) localAlive = .done m' effects) ↔
      ¬m.Cornered other := by
  have hpairwise := snapshot_pairwise hdistinct taken
  constructor
  · rintro ⟨m', effects, hupdate⟩ ⟨hlast, row, hrow, hdown⟩
    obtain ⟨m₁, happlied, -⟩ := update_eq_done hupdate
    rw [hready, Bool.true_or, if_pos rfl] at happlied
    obtain ⟨hmem, hlocal⟩ := mem_of_row?_eq_some hrow
    obtain ⟨before, after, hsplit⟩ := List.append_of_mem (List.mem_map_of_mem
      (f := fun row => Change.ofMember row other.here other.localIncarnation taken.reading) hmem)
    have hclaims : other.snapshot taken = before ++ _ :: after := hsplit
    rw [hclaims] at happlied hpairwise
    obtain ⟨own, hown, -⟩ := exists_localRow?_of_spent hlast
    -- the accusing row is the only one about the local member, so nothing before it can raise its row
    refine happlied.room (fun d hd => ?_) (fun hempty => ?_) ⟨hlocal, hdown, ?_⟩ hlast
    · rw [← hlocal]
      exact (List.pairwise_append.mp hpairwise).2.2 d hd _ List.mem_cons_self
    · exact hnamed row hmem (String.isEmpty_iff.mp hempty)
    · rw [hown]
      rfl
  · -- at most one claim of a snapshot is refuted, and the local row has room for that
    intro hfree
    have hsingle : (other.snapshot taken).Pairwise
        fun c d => c.address = m.here → d.address ≠ m.here := by
      refine hpairwise.imp ?_
      intro c d hne hc hd
      exact hne (hc.trans hd.symm)
    obtain ⟨m₁, effects, happlied⟩ := exists_applied now (fun c hc hrefutes hlast =>
      hfree ⟨hlast, exists_row?_of_refutes hdistinct hc hrefutes⟩) hsingle
    exact ⟨_, effects, update_of_applied hready localAlive happlied⟩

end

/-! ## Two tables -/

/-- Both nodes know the member, and the row of one outlasts that of the other. -/
def Divided (A B : Membership) (address : String) : Prop :=
  ∃ a b, A.row? address = some a ∧ B.row? address = some b ∧
    (Precedence.Outlasts a b ∨ Precedence.Outlasts b a)

section

variable {A B A' B' : Membership} {t₁ t₂ t₃ t₄ : Clock} {f₁ f₂ : Bool} {e₁ e₂ : List Change}
  {address : String}

/-- Hearing of the row that one has changes nothing. -/
theorem takeClaim_self {row : Member} {c : Change} (h : c.toMember = row) :
    takeClaim (some row) c = some row :=
  if_neg (Precedence.not_overrides_self h)

theorem reached_update (hA : A.Reached) {now : Clock} {claims effects : List Change}
    {localAlive : Bool} (h : A.update now claims localAlive = .done A' effects) :
    A'.Distinct ∧ A'.Named := by
  have happly : (Op.update claims localAlive).apply now A = .done A' effects := h
  exact ⟨hA.distinct.apply happly, hA.named.apply happly⟩

variable (hA : A.Reached) (hB : B.Reached) (hreadyA : A.isReady) (hreadyB : B.isReady)
  (h₁ : A.update t₁ (B.snapshot t₂) f₁ = .done A' e₁)
  (h₂ : B.update t₃ (A'.snapshot t₄) f₂ = .done B' e₂)
  (hremoteA : address ≠ A.here) (hremoteB : address ≠ B.here)

include hA hB hreadyA hreadyB h₁ h₂ hremoteA hremoteB

/-- What the exchange makes of the rows of a member that both nodes know. -/
theorem rows_of_exchange {a b : Member} (ha : A.row? address = some a)
    (hb : B.row? address = some b) :
    ∃ c d : Change, c.toMember = a ∧ d.toMember = b ∧
      A'.row? address = (if Precedence.overrides a d then some b else some a) ∧
      B'.row? address = (if Precedence.overrides a d then some b
        else if Precedence.overrides b c then some a else some b) := by
  obtain ⟨hdistinct, hnamed⟩ := reached_update hA h₁
  have hA' := row?_update_snapshot hreadyA hB.distinct hB.named h₁ hremoteA
  have hB' := row?_update_snapshot hreadyB hdistinct hnamed h₂ hremoteB
  rw [ha, hb] at hA'
  rw [hb] at hB'
  refine ⟨Change.ofMember a A'.here A'.localIncarnation t₄.reading,
    Change.ofMember b B.here B.localIncarnation t₂.reading, rfl, rfl, hA', ?_⟩
  by_cases hover : Precedence.overrides a (Change.ofMember b B.here B.localIncarnation t₂.reading)
  · rw [hA'.trans (if_pos hover)] at hB'
    rw [hB', if_pos hover]
    exact takeClaim_self rfl
  · rw [hA'.trans (if_neg hover)] at hB'
    rw [hB', if_neg hover]
    rfl

/-- A member that one of the nodes does not know is known to both after the exchange as the other
    node knows it. -/
theorem agree_of_none (h : A.row? address = none ∨ B.row? address = none) :
    A'.row? address = B'.row? address := by
  obtain ⟨hdistinct, hnamed⟩ := reached_update hA h₁
  have hA' := row?_update_snapshot hreadyA hB.distinct hB.named h₁ hremoteA
  have hB' := row?_update_snapshot hreadyB hdistinct hnamed h₂ hremoteB
  cases hb : B.row? address with
  | none =>
      rw [hb] at hA' hB'
      rw [hB']
      cases hrow : A'.row? address with
      | none => rfl
      | some row => rfl
  | some b =>
      have ha : A.row? address = none := h.resolve_right (hb ▸ Option.some_ne_none b)
      rw [ha, hb] at hA'
      have hrow : A'.row? address = some b := hA'
      rw [hrow, hb] at hB'
      have hrow' : B'.row? address = some b := hB'.trans (takeClaim_self rfl)
      rw [hrow, hrow']

/-- **Where they are not divided, the nodes agree after the exchange.** -/
theorem agree_of_not_divided (h : ¬Divided A B address) : A'.row? address = B'.row? address := by
  cases ha : A.row? address with
  | none => exact agree_of_none hA hB hreadyA hreadyB h₁ h₂ hremoteA hremoteB (Or.inl ha)
  | some a =>
      cases hb : B.row? address with
      | none => exact agree_of_none hA hB hreadyA hreadyB h₁ h₂ hremoteA hremoteB (Or.inr hb)
      | some b =>
          obtain ⟨c, d, rfl, rfl, hA', hB'⟩ :=
            rows_of_exchange hA hB hreadyA hreadyB h₁ h₂ hremoteA hremoteB ha hb
          rw [hA', hB']
          by_cases hover : Precedence.overrides c.toMember d
          · rw [if_pos hover, if_pos hover]
          · rw [if_neg hover, if_neg hover]
            by_cases hsame : c.toMember = d.toMember
            · rw [hsame]
              split <;> rfl
            · -- rows that differ and do not outlast each other: one overrides the other
              have haddress : c.address = d.address :=
                (mem_of_row?_eq_some ha).2.trans (mem_of_row?_eq_some hb).2.symm
              have hneither : ¬Precedence.Outlasts c.toMember d.toMember ∧
                  ¬Precedence.Outlasts d.toMember c.toMember :=
                not_or.mp fun ho => h ⟨_, _, ha, hb, ho⟩
              have hover' := ((Precedence.overrides_or_overrides_iff haddress hsame).mpr
                hneither).resolve_left hover
              exact (if_pos hover').symm

/-- **Where they are divided, the nodes keep the rows that they had**, which differ. -/
theorem keep_of_divided (h : Divided A B address) :
    A'.row? address = A.row? address ∧ B'.row? address = B.row? address ∧
      A.row? address ≠ B.row? address := by
  obtain ⟨a, b, ha, hb, ho⟩ := h
  obtain ⟨c, d, rfl, rfl, hA', hB'⟩ :=
    rows_of_exchange hA hB hreadyA hreadyB h₁ h₂ hremoteA hremoteB ha hb
  have haddress : c.address = d.address :=
    (mem_of_row?_eq_some ha).2.trans (mem_of_row?_eq_some hb).2.symm
  have hne : c.toMember ≠ d.toMember := by
    intro hsame
    rw [hsame, or_self] at ho
    exact Precedence.not_outlasts_of_le (UInt64.le_refl _) ho
  -- neither row overrides the other, so both tables keep what they have
  have hneither : ¬(Precedence.overrides c.toMember d ∨ Precedence.overrides d.toMember c) := by
    rw [Precedence.overrides_or_overrides_iff haddress hne]
    rintro ⟨hleft, hright⟩
    exact ho.elim hleft hright
  obtain ⟨hover, hover'⟩ := not_or.mp hneither
  rw [if_neg hover] at hA' hB'
  rw [if_neg hover'] at hB'
  refine ⟨hA'.trans ha.symm, hB'.trans hb.symm, ?_⟩
  rw [ha, hb]
  exact fun heq => hne (Option.some.inj heq)

end

/-- **Two nodes that exchange their tables agree on all other members, unless they are divided.**

    The tables are ready and have reached any contents. Each half of the exchange is completed exactly
    if the node that hears the other's table is not called down by it at the largest incarnation. After
    both the nodes have the same row
    of every member but themselves, or none, if neither row outlasted the other before; if one did,
    each node keeps its own row. -/
theorem exchange_agrees_iff {A B : Membership} (hA : A.Reached) (hB : B.Reached)
    (hreadyA : A.isReady) (hreadyB : B.isReady) (t₁ t₂ t₃ t₄ : Clock) (f₁ f₂ : Bool) :
    ((∃ A' e₁, A.update t₁ (B.snapshot t₂) f₁ = .done A' e₁) ↔ ¬A.Cornered B) ∧
    ∀ A' e₁, A.update t₁ (B.snapshot t₂) f₁ = .done A' e₁ →
      ((∃ B' e₂, B.update t₃ (A'.snapshot t₄) f₂ = .done B' e₂) ↔ ¬B.Cornered A') ∧
      ∀ B' e₂, B.update t₃ (A'.snapshot t₄) f₂ = .done B' e₂ →
        ∀ address, address ≠ A.here → address ≠ B.here →
          (A'.row? address = B'.row? address ↔ ¬Divided A B address) ∧
          (Divided A B address →
            A'.row? address = A.row? address ∧ B'.row? address = B.row? address) := by
  refine ⟨exists_update_snapshot_iff hreadyA hB.distinct hB.named t₁ t₂ f₁, ?_⟩
  intro A' e₁ h₁
  obtain ⟨hdistinct, hnamed⟩ := reached_update hA h₁
  refine ⟨exists_update_snapshot_iff hreadyB hdistinct hnamed t₃ t₄ f₂, ?_⟩
  intro B' e₂ h₂ address hremoteA hremoteB
  have hkeep := keep_of_divided hA hB hreadyA hreadyB h₁ h₂ hremoteA hremoteB
  refine ⟨⟨?_, agree_of_not_divided hA hB hreadyA hreadyB h₁ h₂ hremoteA hremoteB⟩,
    fun h => ⟨(hkeep h).1, (hkeep h).2.1⟩⟩
  intro hagree hdivided
  obtain ⟨hA', hB', hne⟩ := hkeep hdivided
  exact hne (hA'.symm.trans (hagree.trans hB'))

/-- The nodes `a` and `b` suspect `x` and take it to have failed, at one incarnation. -/
theorem exchange_agrees_about_failure :
    ∃ A B A' B' e₁ e₂,
      (empty "a" hash32 .none).run [(7, .assert "a" .alive 1), (7, .openGate),
        (8, .update [⟨"x", .suspect, 5, "x", 5, 8⟩] false)] = .done A () ∧
      (empty "b" hash32 .none).run [(7, .assert "b" .alive 1), (7, .openGate),
        (8, .update [⟨"x", .faulty, 5, "c", 1, 8⟩] false)] = .done B () ∧
      A.update 9 (B.snapshot 9) false = .done A' e₁ ∧
      B.update 9 (A'.snapshot 9) false = .done B' e₂ ∧ A'.row? "x" = B'.row? "x" := by
  have hA : (empty "a" hash32 .none).run [(7, .assert "a" .alive 1), (7, .openGate),
      (8, .update [⟨"x", .suspect, 5, "x", 5, 8⟩] false)] = .done _ () :=
    Attempt.eq_done_of_result? (by decide +kernel)
  have hB : (empty "b" hash32 .none).run [(7, .assert "b" .alive 1), (7, .openGate),
      (8, .update [⟨"x", .faulty, 5, "c", 1, 8⟩] false)] = .done _ () :=
    Attempt.eq_done_of_result? (by decide +kernel)
  obtain ⟨hfirst, hthen⟩ := exchange_agrees_iff ⟨_, _, _, _, hA⟩ ⟨_, _, _, _, hB⟩
    (by decide +kernel) (by decide +kernel) 9 9 9 9 false false
  obtain ⟨A', e₁, h₁⟩ := hfirst.mpr fun hcornered => absurd hcornered.1 (by decide +kernel)
  obtain ⟨hsecond, hagree⟩ := hthen A' e₁ h₁
  obtain ⟨B', e₂, h₂⟩ := hsecond.mpr fun hcornered => absurd hcornered.1 (by decide +kernel)
  refine ⟨_, _, A', B', e₁, e₂, hA, hB, h₁, h₂, ?_⟩
  refine ((hagree B' e₂ h₂ "x" (by decide +kernel) (by decide +kernel)).1).mpr ?_
  rintro ⟨a, b, ha, hb, ho⟩
  obtain rfl : a = ⟨"x", .suspect, 5⟩ := Option.some.inj (ha.symm.trans (by decide +kernel))
  obtain rfl : b = ⟨"x", .faulty, 5⟩ := Option.some.inj (hb.symm.trans (by decide +kernel))
  exact ho.elim (by decide) (by decide)

/-- The nodes `a` and `b` take `x` to have left at different incarnations, and still do after the
    exchange. -/
theorem exchange_leaves_departed_apart :
    ∃ A B A' B' e₁ e₂,
      (empty "a" hash32 .none).run [(7, .assert "a" .alive 1), (7, .openGate),
        (8, .update [⟨"x", .leave, 5, "x", 5, 8⟩] false)] = .done A () ∧
      (empty "b" hash32 .none).run [(7, .assert "b" .alive 1), (7, .openGate),
        (8, .update [⟨"x", .leave, 6, "x", 6, 8⟩] false)] = .done B () ∧
      A.isReady ∧ B.isReady ∧ A.here ≠ B.here ∧
      A.update 9 (B.snapshot 9) false = .done A' e₁ ∧
      B.update 9 (A'.snapshot 9) false = .done B' e₂ ∧
      A'.row? "x" = some ⟨"x", .leave, 5⟩ ∧ B'.row? "x" = some ⟨"x", .leave, 6⟩ := by
  refine ⟨_, _, _, _, _, _, Attempt.eq_done_of_result? ?_, Attempt.eq_done_of_result? ?_, ?_, ?_,
    ?_, rfl, rfl, ?_, ?_⟩
  all_goals decide +kernel

end GossipRing.Membership
