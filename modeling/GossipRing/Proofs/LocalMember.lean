import GossipRing.Proofs.TableRuns

/-!
# What a table says of its own node

Toward: a node is never down in its own table. Whatever is claimed about it, its row says that it is
alive, or that it left by its own word.

* **`Op.spares_of_mem`** — what takes effect about the node itself, and **`Op.localRow?_eq_some`** —
  its row is the old one, or that of such an effect.
* **`Spared`** — the invariant: the node's row is that of a member that is alive or left.
* **`apply_down`**, **`Applied.refutes`** — the answer to a claim that the node is down, when it
  stands alone and when it stands in a batch.
-/

namespace GossipRing.Membership

variable {now : Clock} {m m' : Membership} {op : Op} {effects : List Change}

/-! ## The node's own row -/

/-- **What takes effect about this node says that it is alive, or was claimed by itself and says
    that it leaves.** -/
theorem Op.spares_of_mem (h : op.apply now m = .done m' effects) {e : Change} (he : e ∈ effects)
    (hlocal : e.address = m.here) :
    e.status = .alive ∨ e ∈ op.reaching now m ∧ e.status = .leave ∧ e.source = m.here := by
  rcases op.apply_cases h with ⟨snapshots, -, -, rfl⟩ | ⟨m₁, happlied, -⟩
  · exact absurd hlocal (mem_of_mem_adopt he).2.1
  · obtain ⟨-, ⟨hclaimed, hspares⟩ | hrefutation⟩ := happlied.origin he
    · rcases hspares hlocal with halive | hleft
      · exact Or.inl halive
      · exact Or.inr ⟨hclaimed, hleft⟩
    · exact Or.inl hrefutation.2.1

/-- After an operation the node has the row it had, or that of an effect about it. -/
theorem Op.localRow?_eq_some (h : op.apply now m = .done m' effects) {row : Member}
    (hrow : m'.localRow? = some row) :
    m.localRow? = some row ∨ ∃ e ∈ effects, e.address = m.here ∧ e.toMember = row := by
  rw [(op.alike_putAll h).localRow?, localRow?, here_putAll] at hrow
  rcases row?_putAll_eq_some hrow with hold | ⟨e, he, rfl⟩
  · exact Or.inl hold
  · exact Or.inr ⟨e, he, (mem_of_row?_eq_some hrow).2, rfl⟩

/-- The node's own row, if it has one, says that it is alive or left. -/
def Spared (m : Membership) : Prop :=
  ∀ row, m.localRow? = some row → row.status = .alive ∨ row.status = .leave

theorem Spared.apply (hm : m.Spared) (h : op.apply now m = .done m' effects) : m'.Spared := by
  intro row hrow
  rcases op.localRow?_eq_some h hrow with hold | ⟨e, he, hlocal, rfl⟩
  · exact hm row hold
  · rcases op.spares_of_mem h he hlocal with halive | ⟨-, hleft, -⟩
    · exact Or.inl halive
    · exact Or.inr hleft

theorem Reached.spared (h : Reached m) : m.Spared := by
  obtain ⟨here, hash, chance, ops, hrun⟩ := h
  refine run_induction (P := Spared) (fun hm h => hm.apply h) ?_ hrun
  intro row hrow
  cases hrow

/-- A node that says it left said so before, or says it by a claim of its own that took effect. -/
theorem Op.leave_of_localRow? (h : op.apply now m = .done m' effects) {row : Member}
    (hrow : m'.localRow? = some row) (hleft : row.status = .leave) :
    m.localRow? = some row ∨
      ∃ c ∈ op.reaching now m, c ∈ effects ∧ c.source = m.here ∧ c.toMember = row := by
  rcases op.localRow?_eq_some h hrow with hold | ⟨e, he, hlocal, rfl⟩
  · exact Or.inl hold
  · rcases op.spares_of_mem h he hlocal with halive | ⟨hclaimed, -, hown⟩
    · exact absurd (halive.symm.trans hleft) (by decide)
    · exact Or.inr ⟨e, hclaimed, he, hown, rfl⟩

/-! ## Refutations -/

/-- The row that a refutation leaves. -/
theorem localRow?_put_refutation (m : Membership) (inc : UInt64) (now : Clock) :
    (m.put (m.refutation inc now).toMember).localRow? = some ⟨m.here, .alive, inc⟩ := by
  rw [localRow?_put]
  exact if_pos rfl

/-- **A node that is called down is alive at a greater incarnation, and says so.** -/
theorem apply_down (now : Clock) {row : Member} {c : Change} (hlocal : c.address = m.here)
    (hdown : c.status.IsDown) (hrow : m.localRow? = some row)
    (hroom : row.incarnation ≠ lastIncarnation) :
    ∃ inc m', row.incarnation < inc ∧ apply now m c = .done m' (some (m.refutation inc now)) ∧
      m'.localRow? = some ⟨m.here, .alive, inc⟩ := by
  have hinc : m.localIncarnation = row.incarnation := localIncarnation_of_localRow? hrow
  have hrefutes : m.Refutes c := ⟨hlocal, hdown, by rw [hrow]; rfl⟩
  have hfresh : m.freshIncarnation? now = some (max now.reading (m.localIncarnation + 1)) :=
    if_neg (hinc ▸ hroom)
  have happly := apply_of_refutes now hrefutes
  rw [hfresh] at happly
  exact ⟨_, _, hinc ▸ lt_of_freshIncarnation? hfresh, happly, localRow?_put_refutation m _ now⟩

/-- In a batch the answer takes the place of the claim, and is newer than the row that the claims
    before it left. -/
theorem Applied.refutes {c : Change} {before after : List Change}
    (h : Applied now m (before ++ c :: after) m' effects) (hnamed : ¬c.isMalformed)
    (hlocal : c.address = m.here) (hdown : c.status.IsDown) :
    ∃ m₁ first, applyAll now m before = .done m₁ first ∧
      ∀ row, m₁.localRow? = some row →
        ∃ inc m₂ rest, row.incarnation < inc ∧
          apply (now.after before.length) m₁ c =
            .done m₂ (some (m.refutation inc (now.after before.length))) ∧
          m₂.localRow? = some ⟨m.here, .alive, inc⟩ ∧
          effects = first ++ m.refutation inc (now.after before.length) :: rest := by
  obtain ⟨m₁, first, second, hbefore, hafter, rfl⟩ := h.split
  refine ⟨m₁, first, applyAll_eq_done_iff.mpr hbefore, ?_⟩
  intro row hrow
  have hhere : m₁.here = m.here := hbefore.here_eq
  have hrefutes : m₁.Refutes c := ⟨hlocal.trans hhere.symm, hdown, by rw [hrow]; rfl⟩
  -- the claim comes to a table with a local row, so it is neither ignored nor accepted
  cases hafter with
  | ignore hignores _ => exact absurd hrefutes (hignores.resolve_left hnamed).2
  | accept _ haccepts _ => exact absurd haccepts (not_accepts_of_refutes hrefutes)
  | @refute _ _ _ _ _ rest inc _ _ hfresh _ =>
      have hanswer : m₁.refutation inc (now.after before.length) =
          m.refutation inc (now.after before.length) := by
        rw [refutation, refutation, hhere]
      have hlt := lt_of_freshIncarnation? hfresh
      rw [localIncarnation_of_localRow? hrow] at hlt
      have happly : apply (now.after before.length) m₁ c =
          .done (m₁.put (m.refutation inc (now.after before.length)).toMember)
            (some (m.refutation inc (now.after before.length))) := by
        rw [apply_of_refutes _ hrefutes, hfresh, ← hanswer]
      refine ⟨inc, _, rest, hlt, happly, ?_, by rw [hanswer]⟩
      rw [← hanswer, localRow?_put_refutation, hhere]

/-! ## Every run -/

/-- **A node is never down in its own table.**

    After every run its row is alive or left. It comes to say that the node left only by a claim of
    the node's own, and adopting snapshots does not change it. A claim that the node is down takes
    effect in no batch: where the node has a row, the answer is that it is alive at an incarnation
    greater than that of the row, and the answer stands in the claim's place. The clock is read when
    the claim's turn comes, so it may move while the claims before it are applied. -/
theorem localRow?_never_down (hm : m.Reached) :
    (∀ row, m.localRow? = some row → row.status = .alive ∨ row.status = .leave) ∧
    (∀ now (op : Op) m' effects, op.apply now m = .done m' effects →
      (∀ row, m'.localRow? = some row → row.status = .leave →
        m.localRow? = some row ∨
          ∃ c ∈ op.reaching now m, c ∈ effects ∧ c.source = m.here ∧ c.toMember = row) ∧
      (∀ e ∈ effects, e.address = m.here → ¬e.status.IsDown) ∧
      (∀ before c after, op.reaching now m = before ++ c :: after → ¬c.isMalformed →
        c.address = m.here → c.status.IsDown →
        ∃ m₁ first, applyAll now m before = .done m₁ first ∧
          ∀ row, m₁.localRow? = some row →
            ∃ inc m₂ rest, row.incarnation < inc ∧
              apply (now.after before.length) m₁ c =
                .done m₂ (some (m.refutation inc (now.after before.length))) ∧
              m₂.localRow? = some ⟨m.here, .alive, inc⟩ ∧
              effects = first ++ m.refutation inc (now.after before.length) :: rest)) ∧
    (∀ snapshots, (m.adopt snapshots).1.localRow? = m.localRow?) ∧
    (∀ now c row, c.address = m.here → c.status.IsDown → m.localRow? = some row →
      row.incarnation ≠ lastIncarnation →
      ∃ inc m', row.incarnation < inc ∧ apply now m c = .done m' (some (m.refutation inc now)) ∧
        m'.localRow? = some ⟨m.here, .alive, inc⟩) := by
  refine ⟨hm.spared, ?_, localRow?_adopt m, fun now c row => apply_down now⟩
  intro now op m' effects h
  refine ⟨fun row hrow hleft => op.leave_of_localRow? h hrow hleft, ?_, ?_⟩
  · intro e he hlocal hdown
    rcases op.spares_of_mem h he hlocal with halive | ⟨-, hleft, -⟩
    · exact absurd (halive ▸ hdown) (by decide)
    · exact absurd (hleft ▸ hdown) (by decide)
  · intro before c after hreaching hnamed hlocal hdown
    rcases op.apply_cases h with ⟨snapshots, rfl, -, -⟩ | ⟨m₁, happlied, -⟩
    · exact absurd hreaching (List.append_ne_nil_of_right_ne_nil _ (List.cons_ne_nil _ _)).symm
    · rw [hreaching] at happlied
      exact happlied.refutes hnamed hlocal hdown

/-- The node `a` hears that it failed, before it has joined and then as a member. The first claim is
    held back and answered when the gate opens, and the second one is answered at once. -/
theorem localRow?_never_down_after_rumours :
    ∃ m, ((empty "a" hash32 .none).run
        [(7, .assert "a" .alive 1), (7, .update [⟨"a", .faulty, 5, "b", 1, 6⟩] false),
          (8, .openGate), (9, .update [⟨"a", .suspect, 8, "b", 1, 9⟩] false)]) = .done m () ∧
      m.localRow? = some ⟨"a", .alive, 9⟩ ∧
      ∀ row, m.localRow? = some row → row.status = .alive ∨ row.status = .leave := by
  refine ⟨_, Attempt.eq_done_of_result? ?_, ?_, ?_⟩
  · decide +kernel
  · decide +kernel
  · exact (localRow?_never_down
      ⟨"a", hash32, .none, _, Attempt.eq_done_of_result? (by decide +kernel)⟩).1

end GossipRing.Membership
