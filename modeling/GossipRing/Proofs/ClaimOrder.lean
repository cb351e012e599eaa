import GossipRing.Precedence
import Mathlib.Data.Prod.Lex

/-!
# Which claims win

Toward: what two nodes record once each has heard the other. A claim and a row about one member
are compared by incarnation first, then by how bad the status is.

* **`Member.standing`** — that order, and `eq_of_standing_eq`: rows of one address that stand alike
  are equal.
* **`overrides_iff_of_alive`**, **`overrides_iff_of_doubted`**, **`overrides_iff_of_departed`** —
  what precedence asks of each kind of claim.
* **`overrides_iff_lt`** — among members that have not departed, precedence is this order.
* **`Outlasts`** — where it is not: a departed row stands against a newer claim that is neither
  alive nor the other kind of departure. **`overrides_or_overrides_iff`** — of two different rows
  one overrides the other, unless one outlasts the other.
-/

namespace GossipRing

namespace Status

/-- The member has left, or has been reaped. -/
def IsDeparted (s : Status) : Prop := s = .leave ∨ s = .tombstone

instance (s : Status) : Decidable s.IsDeparted := inferInstanceAs (Decidable (_ ∨ _))

theorem rank_injective {s t : Status} (h : s.rank = t.rank) : s = t := by
  cases s <;> cases t <;> first | rfl | exact absurd h (by decide)

/-- A status is alive, in doubt, or that of a departed member. -/
theorem alive_or_doubted_or_departed (s : Status) :
    s = .alive ∨ (s = .suspect ∨ s = .faulty) ∨ s.IsDeparted := by
  cases s <;> decide

end Status

namespace Member

/-- Where a row stands among those of its address: by incarnation, then by how bad its status is. -/
def standing (m : Member) : ℕ ×ₗ ℕ := toLex (m.incarnation.toNat, m.status.rank)

theorem standing_lt_iff {a b : Member} :
    a.standing < b.standing ↔
      a.incarnation < b.incarnation ∨
        a.incarnation = b.incarnation ∧ a.status.rank < b.status.rank := by
  rw [standing, standing, Prod.Lex.toLex_lt_toLex, UInt64.lt_iff_toNat_lt, UInt64.toNat_inj]

theorem eq_of_standing_eq {a b : Member} (haddress : a.address = b.address)
    (h : a.standing = b.standing) : a = b := by
  obtain ⟨hincarnation, hrank⟩ := Prod.mk.inj (toLex_inj.mp h)
  obtain ⟨address, status, incarnation⟩ := a
  obtain ⟨address', status', incarnation'⟩ := b
  obtain rfl : address = address' := haddress
  obtain rfl : incarnation = incarnation' := UInt64.toNat_inj.mp hincarnation
  obtain rfl : status = status' := Status.rank_injective hrank
  rfl

end Member

namespace Precedence

/-! ## What each kind of claim needs -/

variable {m : Member} {c : Change}

theorem overrides_iff_of_alive (hc : c.status = .alive) :
    overrides m c ↔ m.incarnation < c.incarnation := by
  simp [overrides, aliveOverrides, suspectOverrides, faultyOverrides, leaveOverrides,
    tombstoneOverrides, hc]

theorem overrides_iff_of_departed (hc : c.status.IsDeparted) :
    overrides m c ↔ m.status ≠ c.status ∧ m.incarnation ≤ c.incarnation := by
  rcases hc with hc | hc
  all_goals
    simp [overrides, aliveOverrides, suspectOverrides, faultyOverrides, leaveOverrides,
      tombstoneOverrides, hc]

/-- A claim that doubts a member wins by its standing, but never over a departed one. -/
theorem overrides_iff_of_doubted (hc : c.status = .suspect ∨ c.status = .faulty) :
    overrides m c ↔ ¬m.status.IsDeparted ∧ m.standing < c.toMember.standing := by
  have hle : m.incarnation ≤ c.incarnation ↔
      m.incarnation < c.incarnation ∨ m.incarnation = c.incarnation := UInt64.le_iff_lt_or_eq
  rw [Member.standing_lt_iff]
  rcases hc with hc | hc
  all_goals
    cases hm : m.status <;>
      simp [overrides, aliveOverrides, suspectOverrides, faultyOverrides, leaveOverrides,
        tombstoneOverrides, Status.IsDeparted, Status.rank, Change.toMember, hc, hm, hle]

/-! ## The order -/

/-- What overrides a row is at least as new. -/
theorem incarnation_le_of_overrides (h : overrides m c) : m.incarnation ≤ c.incarnation := by
  rcases c.status.alive_or_doubted_or_departed with hc | hc | hc
  · exact UInt64.le_of_lt ((overrides_iff_of_alive hc).mp h)
  · rcases Member.standing_lt_iff.mp ((overrides_iff_of_doubted hc).mp h).2 with hlt | ⟨heq, -⟩
    · exact UInt64.le_of_lt hlt
    · exact UInt64.le_of_eq heq
  · exact ((overrides_iff_of_departed hc).mp h).2

/-- **Among members that have not departed, precedence is the order of standings.** -/
theorem overrides_iff_lt (hm : ¬m.status.IsDeparted) (hc : ¬c.status.IsDeparted) :
    overrides m c ↔ m.standing < c.toMember.standing := by
  rcases c.status.alive_or_doubted_or_departed with halive | hdoubted | hdeparted
  · rw [overrides_iff_of_alive halive, Member.standing_lt_iff]
    -- at one incarnation nothing is better than alive
    have hrank : ¬m.status.rank < c.toMember.status.rank := by
      show ¬m.status.rank < c.status.rank
      rw [halive]
      exact Nat.not_lt_zero _
    simp only [hrank, and_false, or_false]
    rfl
  · rw [overrides_iff_of_doubted hdoubted, and_iff_right hm]
  · exact absurd hdeparted hc

/-! ## Where precedence leaves rows apart -/

/-- The departed row `a` stands against the newer row `b`, which is neither alive nor a departure of
    the other kind. -/
def Outlasts (a b : Member) : Prop :=
  a.status.IsDeparted ∧ a.incarnation < b.incarnation ∧ b.status ≠ .alive ∧
    (b.status.IsDeparted → b.status = a.status)

instance (a b : Member) : Decidable (Outlasts a b) := inferInstanceAs (Decidable (_ ∧ _))

/-- A newer claim overrides a row that does not outlast it. -/
theorem overrides_iff_of_newer (h : m.incarnation < c.incarnation) :
    overrides m c ↔ ¬Outlasts m c.toMember := by
  have hstanding : m.standing < c.toMember.standing := Member.standing_lt_iff.mpr (Or.inl h)
  rcases c.status.alive_or_doubted_or_departed with hc | hc | hc
  · have houtlasts : ¬Outlasts m c.toMember := fun ho => ho.2.2.1 hc
    exact iff_of_true ((overrides_iff_of_alive hc).mpr h) houtlasts
  · rw [overrides_iff_of_doubted hc, and_iff_left hstanding, not_iff_not]
    constructor
    · intro hm
      have halive : c.status ≠ .alive := by rcases hc with hc | hc <;> simp [hc]
      have hdeparted : ¬c.status.IsDeparted := by
        rcases hc with hc | hc <;> simp [hc, Status.IsDeparted]
      exact ⟨hm, h, halive, fun hd => absurd hd hdeparted⟩
    · exact And.left
  · rw [overrides_iff_of_departed hc, and_iff_left (UInt64.le_of_lt h), ne_eq, not_iff_not]
    constructor
    · intro hm
      have halive : c.status ≠ .alive := by rcases hc with hc | hc <;> simp [hc]
      exact ⟨hm ▸ hc, h, halive, fun _ => hm.symm⟩
    · intro ho
      exact (ho.2.2.2 hc).symm

/-- Between claims of one incarnation the worse one wins. -/
theorem overrides_of_worse (h : m.incarnation = c.incarnation)
    (hrank : m.status.rank < c.status.rank) : overrides m c := by
  have hstanding : m.standing < c.toMember.standing :=
    Member.standing_lt_iff.mpr (Or.inr ⟨h, hrank⟩)
  rcases c.status.alive_or_doubted_or_departed with hc | hc | hc
  · rw [hc] at hrank
    exact absurd hrank (Nat.not_lt_zero _)
  · refine (overrides_iff_of_doubted hc).mpr ⟨?_, hstanding⟩
    -- nothing that departed ranks below a doubt
    rintro (hm | hm) <;> rcases hc with hc | hc <;> rw [hm, hc] at hrank <;>
      exact absurd hrank (by decide)
  · refine (overrides_iff_of_departed hc).mpr ⟨?_, UInt64.le_of_eq h⟩
    intro hstatus
    rw [hstatus] at hrank
    exact lt_irrefl _ hrank

theorem not_overrides_self (hc : c.toMember = m) : ¬overrides m c := by
  subst hc
  rcases c.status.alive_or_doubted_or_departed with hc | hc | hc
  · exact fun h => UInt64.lt_irrefl _ ((overrides_iff_of_alive hc).mp h)
  · exact fun h => lt_irrefl _ ((overrides_iff_of_doubted hc).mp h).2
  · exact fun h => ((overrides_iff_of_departed hc).mp h).1 rfl

theorem not_overrides_of_older (h : c.incarnation < m.incarnation) : ¬overrides m c := by
  intro hover
  exact UInt64.lt_irrefl _ (UInt64.lt_of_lt_of_le h (incarnation_le_of_overrides hover))

theorem not_outlasts_of_le {a b : Member} (h : b.incarnation ≤ a.incarnation) : ¬Outlasts a b := by
  intro ho
  exact UInt64.lt_irrefl _ (UInt64.lt_of_lt_of_le ho.2.1 h)

/-- **Of two different rows of one address one overrides the other, unless one outlasts it.** -/
theorem overrides_or_overrides_iff {d : Change} (haddress : c.address = d.address)
    (hne : c.toMember ≠ d.toMember) :
    overrides c.toMember d ∨ overrides d.toMember c ↔
      ¬Outlasts c.toMember d.toMember ∧ ¬Outlasts d.toMember c.toMember := by
  rcases Std.lt_trichotomy c.incarnation d.incarnation with hlt | hsame | hlt
  · rw [or_iff_left (not_overrides_of_older (m := d.toMember) hlt),
      and_iff_left (not_outlasts_of_le (UInt64.le_of_lt hlt))]
    exact overrides_iff_of_newer (m := c.toMember) hlt
  · refine iff_of_true ?_
      ⟨not_outlasts_of_le (UInt64.le_of_eq hsame.symm), not_outlasts_of_le (UInt64.le_of_eq hsame)⟩
    have hrank : c.status.rank ≠ d.status.rank := fun h =>
      hne (Member.eq_of_standing_eq haddress
        (congrArg toLex (Prod.ext (congrArg UInt64.toNat hsame) h)))
    rcases Nat.lt_or_gt_of_ne hrank with hworse | hworse
    · exact Or.inl (overrides_of_worse hsame hworse)
    · exact Or.inr (overrides_of_worse hsame.symm hworse)
  · rw [or_iff_right (not_overrides_of_older (m := c.toMember) hlt),
      and_iff_right (not_outlasts_of_le (UInt64.le_of_lt hlt))]
    exact overrides_iff_of_newer (m := d.toMember) hlt

end Precedence

end GossipRing
