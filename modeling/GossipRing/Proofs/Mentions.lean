import GossipRing.Node
import GossipRing.Proofs.Reconciliation
import Mathlib.Data.Set.Basic

/-!
# Whom a node mentions, and at which incarnation

Toward: nobody makes up an incarnation for somebody else. A node holds claims in many places, and of
all of them only the address and the incarnation matter here.

* **`Mention`** — a member at an incarnation. `Membership.mentions` are all those that a table holds,
  in its rows and behind the gate.
* **`Mints`** — the one kind of mention that a node may make up: itself, at an incarnation that it
  has reached.
* **`Membership.Inherits`** — what a step may do. What is held afterwards was held before, was given
  from outside, or is minted.
* **`Membership.Op.mem_effects_cases`**, **`Membership.Op.mem_stash_cases`** — where the claims come
  from that an operation lets take effect or holds back.
* **`Membership.Op.inherits`** — every operation is so, given what its claims mention.
-/

namespace GossipRing

/-- A member at an incarnation. -/
abbrev Mention := String × UInt64

def Member.mention (m : Member) : Mention := (m.address, m.incarnation)

def Change.mention (c : Change) : Mention := (c.address, c.incarnation)

def Timer.mention (t : Timer) : Mention := (t.address, t.incarnation)

def Expiry.mention (e : Expiry) : Mention := (e.address, e.incarnation)

/-- What claims mention. -/
def mentionsOf (claims : List Change) : Set Mention := {x | ∃ c ∈ claims, c.mention = x}

namespace Membership

/-- What a table mentions, in its rows and in what is held back. -/
def mentions (m : Membership) : Set Mention :=
  {x | (∃ row ∈ m.rows, row.mention = x) ∨ x ∈ mentionsOf m.gate.stash}

/-- The mention is of this node, at an incarnation that it has reached. -/
def Mints (m : Membership) (x : Mention) : Prop := x.1 = m.here ∧ m.Owns x.2

/-- The second table is of the same node, which is at no smaller incarnation, and mentions only what
    the first one does, what was given, and what the node mints. -/
structure Inherits (given : Set Mention) (m m' : Membership) : Prop where
  here : m'.here = m.here
  owns : ∀ {inc}, m.Owns inc → m'.Owns inc
  mentions : ∀ x ∈ m'.mentions, x ∈ m.mentions ∨ x ∈ given ∨ m'.Mints x

section

variable {now : Clock} {given : Set Mention} {m m' m₁ : Membership} {op : Op}
  {claims effects : List Change} {c e : Change}

/-! ## Effects -/

/-- What took effect about the node itself is at an incarnation that the node has reached. -/
theorem Applied.owns_of_mem (h : Applied now m claims m' effects) (he : e ∈ effects)
    (hlocal : e.address = m.here) : m'.Owns e.incarnation := by
  induction h with
  | nil => exact absurd he List.not_mem_nil
  | ignore _ _ ih => exact ih he hlocal
  | accept _ _ hrest ih =>
      rcases List.mem_cons.mp he with rfl | he
      · exact hrest.owns (owns_put_self hlocal)
      · exact ih he (hlocal.trans (here_put _ _).symm)
  | refute _ _ _ hrest ih =>
      rcases List.mem_cons.mp he with rfl | he
      · exact hrest.owns (owns_put_self rfl)
      · exact ih he (hlocal.trans (here_put _ _).symm)

/-! ## The gate -/

/-- Taking in claims leaves the gate alone, or holds the claims back. -/
theorem gate_update {localAlive : Bool} (h : m.update now claims localAlive = .done m' effects) :
    m'.gate = m.gate ∨
      (m.isReady || localAlive) = false ∧ m' = m.holdBack claims := by
  rw [update] at h
  split at h
  · obtain ⟨m₁, happlied, rfl⟩ := applyBatch_eq_done h
    exact Or.inl (by rw [gate_conclude, happlied.gate_eq])
  · next hclosed =>
    obtain ⟨rfl, -⟩ := Attempt.done.inj h
    exact Or.inr ⟨Bool.eq_false_iff.mpr hclosed, rfl⟩

theorem stash_adopt_sublist (m : Membership) (snapshots : List Snapshot) :
    (m.adopt snapshots).1.gate.stash.Sublist m.gate.stash := by
  rw [gate_adopt, releaseStash]
  split
  · split
    · exact List.nil_sublist _
    · exact List.Sublist.refl _
  · exact List.Sublist.refl _

theorem mem_stash_holdBack (h : c ∈ (m.holdBack claims).gate.stash) :
    c ∈ m.gate.stash ∨ c ∈ claims := by
  rcases List.mem_append.mp h with hold | hnew
  · exact Or.inl hold
  · exact Or.inr (List.mem_filter.mp hnew).1

/-! ## Where claims come from -/

/-- The claims that an operation brings, but for the node's own claim to be alive. -/
def Op.told (now : Clock) (m : Membership) : Op → List Change
  | update claims _ => claims
  | assert address status incarnation =>
    if status = .alive ∧ address = m.here then [] else [m.ownClaim now address status incarnation]
  | adopt snapshots => snapshots.flatMap Snapshot.members
  | openGate => []

/-- **What takes effect was brought or held back, or says that the node itself is alive.** -/
theorem Op.mem_effects_cases (h : op.apply now m = .done m' effects) (he : e ∈ effects) :
    e ∈ op.told now m ∨ e ∈ m.gate.stash ∨ e.address = m.here ∧ e.status = .alive := by
  rcases op.apply_cases h with ⟨snapshots, rfl, -, rfl⟩ | ⟨m₁, happlied, -⟩
  · rcases Snapshot.mem_of_mem_reconcile (mem_of_mem_adopt he).1 with hmem | hstash
    · exact Or.inl (List.mem_flatMap.mpr hmem)
    · exact Or.inr (Or.inl hstash)
  · -- an effect of a batch is one of its claims, or the refutation of one
    rcases (happlied.origin he).2 with ⟨hreaching, -⟩ | ⟨hlocal, halive, -⟩
    · cases op with
      | update claims localAlive =>
          rw [reaching] at hreaching
          split at hreaching
          · exact Or.inl hreaching
          · exact absurd hreaching List.not_mem_nil
      | assert address status incarnation =>
          rw [reaching] at hreaching
          split at hreaching
          · obtain rfl := List.mem_singleton.mp hreaching
            by_cases hown : status = .alive ∧ address = m.here
            · exact Or.inr (Or.inr hown.symm)
            · rw [told, if_neg hown]
              exact Or.inl (List.mem_singleton_self _)
          · exact absurd hreaching List.not_mem_nil
      | adopt snapshots => exact absurd hreaching List.not_mem_nil
      | openGate => exact Or.inr (Or.inl hreaching)
    · exact Or.inr (Or.inr ⟨hlocal.trans happlied.here_eq, halive⟩)

/-- **What is held back afterwards was held back before, or was brought.** -/
theorem Op.mem_stash_cases (h : op.apply now m = .done m' effects) (hc : c ∈ m'.gate.stash) :
    c ∈ m.gate.stash ∨ c ∈ op.told now m := by
  cases op with
  | update claims localAlive =>
      rcases gate_update h with hgate | ⟨-, rfl⟩
      · exact Or.inl (hgate ▸ hc)
      · exact mem_stash_holdBack hc
  | assert address status incarnation =>
      have h : m.update now [m.ownClaim now address status incarnation]
          (status = .alive && address = m.here) = .done m' effects := h
      rcases gate_update h with hgate | ⟨hclosed, rfl⟩
      · exact Or.inl (hgate ▸ hc)
      · refine (mem_stash_holdBack hc).imp_right fun hmem => ?_
        -- the node's own claim to be alive is not held back
        rw [Bool.or_eq_false_iff, Bool.and_eq_false_iff, decide_eq_false_iff_not,
          decide_eq_false_iff_not] at hclosed
        rw [told, if_neg (not_and_or.mpr hclosed.2)]
        exact hmem
  | adopt snapshots =>
      obtain ⟨rfl, -⟩ := Attempt.done.inj h
      exact Or.inl ((m.stash_adopt_sublist snapshots).subset hc)
  | openGate =>
      have h : m.openGate now = .done m' effects := h
      rw [openGate_eq_update] at h
      rcases gate_update h with hgate | ⟨hclosed, -⟩
      · rw [hgate] at hc
        exact absurd hc List.not_mem_nil
      · cases hclosed

/-! ## Operations -/

/-- What an operation mentions was given, unless the node says by it that it is alive. -/
def Op.Within (given : Set Mention) (m : Membership) : Op → Prop
  | update claims _ => mentionsOf claims ⊆ given
  | assert address status incarnation =>
    (address, incarnation) ∈ given ∨ status = .alive ∧ address = m.here
  | adopt snapshots => ∀ s ∈ snapshots, mentionsOf s.members ⊆ given
  | openGate => True

theorem Op.Within.mention_mem (hop : op.Within given m) (hc : c ∈ op.told now m) :
    c.mention ∈ given := by
  cases op with
  | update claims localAlive => exact hop ⟨c, hc, rfl⟩
  | assert address status incarnation =>
      rw [told] at hc
      split at hc
      · exact absurd hc List.not_mem_nil
      · next hother =>
        obtain rfl := List.mem_singleton.mp hc
        exact hop.resolve_right hother
  | adopt snapshots =>
      obtain ⟨s, hs, hmem⟩ := List.mem_flatMap.mp hc
      exact hop s hs ⟨c, hmem, rfl⟩
  | openGate => exact absurd hc List.not_mem_nil

/-- What takes effect about the node itself it mints. -/
theorem Op.mints_of_mem (h : op.apply now m = .done m' effects) (he : e ∈ effects)
    (hlocal : e.address = m.here) : m'.Mints e.mention := by
  rcases op.apply_cases h with ⟨snapshots, -, -, rfl⟩ | ⟨m₁, happlied, halike⟩
  · exact absurd hlocal (mem_of_mem_adopt he).2.1
  · exact ⟨hlocal.trans (op.here_eq h).symm,
      halike.owns_iff.mpr (happlied.owns_of_mem he hlocal)⟩

/-- What takes effect was held or given, or the node mints it. -/
theorem Op.mention_of_mem (hop : op.Within given m) (h : op.apply now m = .done m' effects)
    (he : e ∈ effects) : e.mention ∈ m.mentions ∨ e.mention ∈ given ∨ m'.Mints e.mention := by
  rcases op.mem_effects_cases h he with htold | hstash | ⟨hlocal, -⟩
  · exact Or.inr (Or.inl (hop.mention_mem htold))
  · exact Or.inl (Or.inr ⟨e, hstash, rfl⟩)
  · exact Or.inr (Or.inr (op.mints_of_mem h he hlocal))

/-- **An operation on a table mentions nothing that was not given, but what the node mints.** -/
theorem Op.inherits (hop : op.Within given m) (h : op.apply now m = .done m' effects) :
    m.Inherits given m' := by
  refine ⟨op.here_eq h, op.owns h, ?_⟩
  rintro x (⟨row, hrow, rfl⟩ | ⟨c, hc, rfl⟩)
  · rw [(op.alike_putAll h).rows] at hrow
    rcases mem_rows_putAll hrow with hold | ⟨e, he, rfl⟩
    · exact Or.inl (Or.inl ⟨row, hold, rfl⟩)
    · exact op.mention_of_mem hop h he
  · rcases op.mem_stash_cases h hc with hold | htold
    · exact Or.inl (Or.inr ⟨c, hold, rfl⟩)
    · exact Or.inr (Or.inl (hop.mention_mem htold))

/-- Nothing stands against the claim of a node that it is alive at a fresh incarnation. -/
theorem accepts_of_fresh {inc : UInt64} (hfresh : m.freshIncarnation? now = some inc) :
    m.Accepts (m.ownClaim now m.here .alive inc) := by
  cases hrow : m.row? m.here with
  | none => exact (accepts_iff_of_none hrow).mpr fun _ => rfl
  | some row =>
      refine (accepts_iff_of_some hrow).mpr ⟨?_, fun _ => Or.inl rfl⟩
      have hlt := lt_of_freshIncarnation? hfresh
      rw [localIncarnation_of_localRow? hrow] at hlt
      exact (Precedence.overrides_iff_of_alive rfl).mpr hlt

/-- **A node that claims to be alive at a fresh incarnation has reached it**, open or not. -/
theorem owns_of_assert {inc : UInt64} (hnamed : m.here ≠ "")
    (hfresh : m.freshIncarnation? now = some inc)
    (h : m.assert now m.here .alive inc = .done m' effects) : m'.Owns inc := by
  have h : (Op.assert m.here .alive inc).apply now m = .done m' effects := h
  have hreaching : (Op.assert m.here .alive inc).reaching now m =
      [m.ownClaim now m.here .alive inc] := by
    rw [Op.reaching]
    exact if_pos (by simp)
  have haccepts := accepts_of_fresh hfresh
  rcases Op.apply_cases h with ⟨snapshots, hadopt, -⟩ | ⟨m₁, happlied, halike⟩
  · cases hadopt
  · rw [hreaching] at happlied
    refine halike.owns_iff.mpr ?_
    -- the single claim is fresh, so it can only be accepted
    cases happlied with
    | ignore hignores _ =>
        rcases hignores with hempty | ⟨hnot, -⟩
        · exact absurd (String.isEmpty_iff.mp hempty) hnamed
        · exact absurd haccepts hnot
    | accept _ _ hrest =>
        cases hrest
        exact owns_put_self rfl
    | refute _ hrefutes _ _ => exact absurd haccepts (not_accepts_of_refutes hrefutes)

end

end Membership

end GossipRing
