import GossipRing.Proofs.Reconciliation
import GossipRing.Proofs.RowHistory
import GossipRing.Proofs.Standings

/-!
# What joining keeps of what a node hears

Toward: a node that has joined is no older than what it heard on the way. It hears of others from the
snapshots that it is sent, and from claims that it holds back meanwhile. Snapshots that do not agree
are merged with what was held back, and incarnations alone count. Otherwise what was held back is
replayed by precedence, which is not an order where members depart.

* **`Member.Covers`** — a row stands at least as high as a claim, or recalls it. Whatever supersedes the
  row covers the claim as well (`Covers.supersedes`), so a replay goes on covering what it covered
  (`foldl_takeClaim_covers`).
* **`Applied.covers_or_outlasts`** — a claim that was replayed is covered, unless a departed row stood
  against it in its turn.
* **`SameOwn`** — two tables in which the node knows itself alike. A batch is completed on both or on
  neither (`Applied.transfer`).
* **`completeJoin`** — adopt and replay, as a bootstrap does at its end
  (`Node.completeBootstrap_eq_settle`).
* **`joined_no_older`** — what a joined table makes of every claim it heard, and when the order of the
  hosts does not matter.
-/

namespace GossipRing

namespace Member

/-- The row stands at least as high as the other one, or recalls it. -/
def Covers (row other : Member) : Prop := other.standing ≤ row.standing ∨ row.Recalls other

theorem Covers.refl (row : Member) : row.Covers row := Or.inl (le_refl _)

/-- A row that recalls a tombstone stands right below it. -/
theorem Recalls.le_of_lt {row old next : Member} (h : row.Recalls old)
    (hnext : row.standing < next.standing) : old.standing ≤ next.standing := by
  obtain ⟨hleave, htombstone, hsame⟩ := h
  rw [← not_lt]
  intro hbelow
  rw [standing_lt_iff, hleave] at hnext
  rw [standing_lt_iff, htombstone, ← hsame] at hbelow
  rcases hnext with hnewer | ⟨hequal, hworse⟩
  · rcases hbelow with holder | ⟨hequal, -⟩
    · exact UInt64.lt_irrefl _ (UInt64.lt_trans hnewer holder)
    · exact UInt64.lt_irrefl _ (hequal ▸ hnewer)
  · rcases hbelow with holder | ⟨-, hbetter⟩
    · exact UInt64.lt_irrefl _ (hequal ▸ holder)
    · -- no status ranks between a departure and a tombstone
      exact absurd (Nat.lt_of_lt_of_le hbetter hworse) (lt_irrefl _)

/-- A row that recalls a tombstone covers whatever stands no higher than the tombstone. -/
theorem Recalls.covers_of_le {row old other : Member} (h : row.Recalls old)
    (hle : other.standing ≤ old.standing) : row.Covers other := by
  by_cases habove : row.standing < other.standing
  · have hsame := le_antisymm hle (h.le_of_lt habove)
    obtain ⟨hincarnation, hrank⟩ := Prod.mk.inj (toLex_inj.mp hsame)
    have hstatus : other.status = old.status := Status.rank_injective hrank
    exact Or.inr ⟨h.1, hstatus.trans h.2.1, h.2.2.trans (UInt64.toNat_inj.mp hincarnation).symm⟩
  · exact Or.inl (not_lt.mp habove)

/-- **What supersedes a row covers what the row covers.** -/
theorem Covers.supersedes {row next other : Member} (h : row.Covers other)
    (hnext : next.Supersedes row) : next.Covers other := by
  rcases h with hle | hrecalls
  · rcases hnext with hlt | hnext
    · exact Or.inl (hle.trans hlt.le)
    · exact hnext.covers_of_le hle
  · rcases hnext with hlt | ⟨-, htombstone, -⟩
    · exact Or.inl (hrecalls.le_of_lt hlt)
    · exact absurd (hrecalls.1.symm.trans htombstone) (by decide)

end Member

namespace Precedence

variable {row : Member} {c : Change}

/-- **A claim that is covered overrides nothing**, unless one of the two recalls the other. -/
theorem recalls_of_overrides (h : row.Covers c.toMember) (hover : overrides row c) :
    c.toMember.Recalls row ∨ row.Recalls c.toMember := by
  rcases h with hle | hrecalls
  · rcases supersedes_of_overrides hover with hlt | hrecalls
    · exact absurd hle (not_le_of_gt hlt)
    · exact Or.inl hrecalls
  · exact Or.inr hrecalls

/-- A claim that overrides nothing is covered, or a departed row stands against it. -/
theorem covers_or_outlasts (h : ¬overrides row c) :
    row.Covers c.toMember ∨ Outlasts row c.toMember := by
  by_cases hnewer : row.incarnation < c.incarnation
  · rw [overrides_iff_of_newer hnewer, not_not] at h
    exact Or.inr h
  · refine Or.inl (Or.inl (not_lt.mp fun hlt => ?_))
    rcases Member.standing_lt_iff.mp hlt with habove | ⟨hsame, hworse⟩
    · exact hnewer habove
    · exact h (overrides_of_worse hsame hworse)

end Precedence

namespace Membership

section

variable {now : Clock} {m m' m₁ m₂ : Membership} {address : String} {row : Member} {c : Change}
  {claims before after rest effects : List Change} {snapshots : List Snapshot}

/-! ## The replay of what was held back -/

/-- Claims leave a row that covers what the first one covered. -/
theorem foldl_takeClaim_covers {other : Member} (h : row.Covers other) (claims : List Change) :
    ∃ last, claims.foldl takeClaim (some row) = some last ∧ last.Covers other := by
  induction claims generalizing row with
  | nil => exact ⟨row, rfl, h⟩
  | cons c rest ih =>
      rw [List.foldl_cons]
      by_cases hover : Precedence.overrides row c
      · have htaken : takeClaim (some row) c = some c.toMember := if_pos hover
        rw [htaken]
        exact ih (h.supersedes (Precedence.supersedes_of_overrides hover))
      · have hkept : takeClaim (some row) c = some row := if_neg hover
        rw [hkept]
        exact ih h

/-- **A claim that was applied is covered, unless a departed row stood against it in its turn.** -/
theorem Applied.covers_or_outlasts (h : Applied now m (before ++ c :: after) m' effects)
    (hremote : c.address ≠ m.here) (hnamed : ¬c.isMalformed) :
    ∃ row, m'.row? c.address = some row ∧
      (row.Covers c.toMember ∨ ∃ m₁ first old, Applied now m before m₁ first ∧
        m₁.row? c.address = some old ∧ Precedence.Outlasts old c.toMember) := by
  obtain ⟨m₁, first, second, hfirst, hsecond, -⟩ := h.split
  have hlast := hsecond.row?_eq (hfirst.here_eq.symm ▸ hremote)
  rw [claimsAbout_cons_self hnamed, List.foldl_cons] at hlast
  -- once taken, the claim is covered by whatever comes later
  have hcovered : takeClaim (m₁.row? c.address) c = some c.toMember →
      ∃ row, m'.row? c.address = some row ∧ row.Covers c.toMember := by
    intro htaken
    rw [hlast, htaken]
    exact foldl_takeClaim_covers (.refl _) _
  cases hold : m₁.row? c.address with
  | none =>
      rw [hold] at hcovered
      obtain ⟨row, hrow, hcovers⟩ := hcovered rfl
      exact ⟨row, hrow, Or.inl hcovers⟩
  | some old =>
      rw [hold] at hcovered hlast
      by_cases hover : Precedence.overrides old c
      · obtain ⟨row, hrow, hcovers⟩ := hcovered (if_pos hover)
        exact ⟨row, hrow, Or.inl hcovers⟩
      · have hkept : takeClaim (some old) c = some old := if_neg hover
        rw [hkept] at hlast
        rcases Precedence.covers_or_outlasts hover with hcovers | houtlasts
        · obtain ⟨row, hrow, hcovers⟩ := foldl_takeClaim_covers hcovers (claimsAbout c.address after)
          exact ⟨row, hlast.trans hrow, Or.inl hcovers⟩
        · obtain ⟨row, hrow, -⟩ := foldl_takeClaim_covers (.refl old) (claimsAbout c.address after)
          exact ⟨row, hlast.trans hrow, Or.inr ⟨m₁, first, old, hfirst, hold, houtlasts⟩⟩

/-! ## Where a replay stops -/

/-- The node knows itself alike in both tables. -/
structure SameOwn (m m₁ : Membership) : Prop where
  here : m₁.here = m.here
  localRow : m₁.localRow? = m.localRow?

namespace SameOwn

theorem row?_eq (h : SameOwn m m₁) (hlocal : c.address = m.here) :
    m₁.row? c.address = m.row? c.address := by
  have hown := h.localRow
  rw [localRow?, localRow?, h.here, ← hlocal] at hown
  exact hown

theorem accepts_iff (h : SameOwn m m₁) (hlocal : c.address = m.here) :
    m₁.Accepts c ↔ m.Accepts c := by
  rw [Accepts, Accepts, h.row?_eq hlocal, SparesLocal, SparesLocal, h.here]

theorem refutes_iff (h : SameOwn m m₁) : m₁.Refutes c ↔ m.Refutes c := by
  rw [Refutes, Refutes, h.here, h.localRow]

theorem freshIncarnation?_eq (h : SameOwn m m₁) (now : Clock) :
    m₁.freshIncarnation? now = m.freshIncarnation? now := by
  have hsame : m₁.localIncarnation = m.localIncarnation := by
    rw [localIncarnation, localIncarnation, h.localRow]
  rw [freshIncarnation?, freshIncarnation?, hsame]

theorem put (h : SameOwn m m₁) (row : Member) : SameOwn (m.put row) (m₁.put row) where
  here := by rw [here_put, here_put, h.here]
  localRow := by rw [localRow?_put, localRow?_put, h.here, h.localRow]

/-- What is recorded of another member does not matter. -/
theorem put_left (h : SameOwn m m₁) (hremote : row.address ≠ m.here) : SameOwn (m.put row) m₁ where
  here := by rw [here_put, h.here]
  localRow := by rw [localRow?_put, if_neg hremote, h.localRow]

/-- A claim about another member is applied, whatever the rest makes of the node's own row. -/
theorem exists_applied_cons (h : SameOwn m m₁) (hremote : c.address ≠ m.here)
    (hrest : ∀ m₂, SameOwn m m₂ → ∃ m' effects, Applied now.next m₂ rest m' effects) :
    ∃ m' effects, Applied now m₁ (c :: rest) m' effects := by
  have hother : c.address ≠ m₁.here := h.here.symm ▸ hremote
  refine Membership.exists_applied_cons (fun hrefutes => absurd hrefutes.1 hother) ?_
  intro m₂ hhere hkept
  exact hrest m₂ ⟨hhere.trans h.here, (hkept hother).trans h.localRow⟩

end SameOwn

/-- **A batch that is completed on one table is completed on every other one in which the node knows
    itself alike.** -/
theorem Applied.transfer (h : Applied now m claims m' effects) (hsame : SameOwn m m₁) :
    ∃ m₁' effects₁, Applied now m₁ claims m₁' effects₁ := by
  induction h generalizing m₁ with
  | nil => exact ⟨m₁, [], .nil⟩
  | @ignore now m m' c rest effects hc _ ih =>
      by_cases hlocal : c.address = m.here
      · obtain ⟨m₁', effects₁, hrest⟩ := ih hsame
        refine ⟨m₁', effects₁, .ignore (hc.imp_right fun hnot => ?_) hrest⟩
        rw [hsame.accepts_iff hlocal, hsame.refutes_iff]
        exact hnot
      · -- the tables may differ about this member, so the claim may take effect on the other one
        exact hsame.exists_applied_cons hlocal fun m₂ => ih
  | @accept now m m' c rest effects hnamed hc _ ih =>
      by_cases hlocal : c.address = m.here
      · obtain ⟨m₁', effects₁, hrest⟩ := ih (hsame.put c.toMember)
        exact ⟨m₁', c :: effects₁, .accept hnamed ((hsame.accepts_iff hlocal).mpr hc) hrest⟩
      · exact hsame.exists_applied_cons hlocal fun m₂ h₂ => ih (h₂.put_left hlocal)
  | @refute now m m' c rest effects inc hnamed hc hinc _ ih =>
      have hanswer : m₁.refutation inc now = m.refutation inc now := by
        rw [refutation, refutation, hsame.here]
      obtain ⟨m₁', effects₁, hrest⟩ := ih (hsame.put (m.refutation inc now).toMember)
      rw [← hanswer] at hrest
      rw [← hsame.freshIncarnation?_eq now] at hinc
      exact ⟨m₁', _ :: effects₁, .refute hnamed (hsame.refutes_iff.mpr hc) hinc hrest⟩

/-! ## The join as a whole -/

/-- All claims that a node has heard when its join is complete. -/
def heard (m : Membership) (snapshots : List Snapshot) : List Change :=
  snapshots.flatMap Snapshot.members ++ m.gate.stash

/-- Adopt the snapshots, and open the gate. -/
def completeJoin (m : Membership) (now : Clock) (snapshots : List Snapshot) :
    Attempt Membership (List Change) :=
  (m.adopt snapshots).1.openGate now

/-- The table that has adopted the snapshots and opened its gate, before the replay. -/
def adopted (m : Membership) (snapshots : List Snapshot) : Membership :=
  { (m.adopt snapshots).1 with gate := .opened }

/-- The claims at the highest incarnation have one status. -/
def Undisputed (claims : List Change) : Prop :=
  ∀ c d, Highest claims c → Highest claims d → c.status = d.status

theorem here_adopted (m : Membership) (snapshots : List Snapshot) :
    (m.adopted snapshots).here = m.here := here_adopt m snapshots

theorem localRow?_adopted (m : Membership) (snapshots : List Snapshot) :
    (m.adopted snapshots).localRow? = m.localRow? := localRow?_adopt m snapshots

/-- Whoever has a row in a secluded table is the node itself. -/
theorem Secluded.row?_eq_none (h : m.Secluded) (hremote : address ≠ m.here) :
    m.row? address = none := by
  cases hrow : m.row? address with
  | none => rfl
  | some row =>
      obtain ⟨hmem, rfl⟩ := mem_of_row?_eq_some hrow
      exact absurd (h row hmem) hremote

/-! ### Snapshots that are merged -/

/-- Where snapshots are merged nothing is left to be replayed. -/
theorem completeJoin_of_not_agreed (hclosed : m.isReady = false) (h : ¬Snapshot.Agreed snapshots)
    (now : Clock) : m.completeJoin now snapshots = .done (m.adopted snapshots) [] := by
  have hgate : (m.adopt snapshots).1.gate = .closed [] := by
    refine gate_adopt_of_consumed hclosed ?_
    rw [Snapshot.reconcile_of_not_agreed h]
  rw [completeJoin, openGate, hgate]
  rfl

/-- **Another member has the row of a claim at the highest incarnation**, if any claim is about it. -/
theorem row?_adopted_of_not_agreed (hsecluded : m.Secluded) (h : ¬Snapshot.Agreed snapshots)
    (hremote : address ≠ m.here) :
    claimsAbout address (m.heard snapshots) = [] ∧ (m.adopted snapshots).row? address = none ∨
    ∃ c, Highest (claimsAbout address (m.heard snapshots)) c ∧
      (m.adopted snapshots).row? address = some c.toMember := by
  have hrow : (m.adopted snapshots).row? address = lastRow? address (Snapshot.newest m.here
      (m.heard snapshots)) := by
    show (m.adopt snapshots).1.row? address = _
    rw [row?_adopt hremote, hsecluded.row?_eq_none hremote, Option.or_none,
      Snapshot.reconcile_of_not_agreed h]
    rfl
  cases hlast : (claimsAbout address (Snapshot.newest m.here (m.heard snapshots))).getLast? with
  | none =>
      refine Or.inl ⟨?_, by rw [hrow, lastRow?, hlast]; rfl⟩
      refine List.eq_nil_iff_forall_not_mem.mpr fun c hc => ?_
      obtain ⟨k, hk⟩ := Snapshot.exists_mem_newest hremote hc
      rw [List.getLast?_eq_none_iff.mp hlast] at hk
      exact List.not_mem_nil hk
  | some k =>
      have hk := Snapshot.highest_of_mem_newest hremote (List.mem_of_getLast? hlast)
      exact Or.inr ⟨k, hk, by rw [hrow, lastRow?, hlast]; rfl⟩

/-- The row is as new as every claim. -/
theorem adopted_no_older (hsecluded : m.Secluded) (h : ¬Snapshot.Agreed snapshots)
    (hc : c ∈ m.heard snapshots) (hremote : c.address ≠ m.here) (hnamed : ¬c.isMalformed) :
    ∃ row, (m.adopted snapshots).row? c.address = some row ∧ c.incarnation ≤ row.incarnation := by
  have habout : c ∈ claimsAbout c.address (m.heard snapshots) := mem_claimsAbout.mpr ⟨hc, hnamed, rfl⟩
  rcases row?_adopted_of_not_agreed hsecluded h hremote with ⟨hnone, -⟩ | ⟨k, hhighest, hrow⟩
  · rw [hnone] at habout
    exact absurd habout List.not_mem_nil
  · exact ⟨k.toMember, hrow, hhighest.le c habout⟩

/-- Where the newest claims do not dispute a status, the order of the snapshots does not matter. -/
theorem row?_adopted_of_perm {others : List Snapshot} (hsecluded : m.Secluded)
    (h : ¬Snapshot.Agreed snapshots) (hperm : others.Perm snapshots) (hremote : address ≠ m.here)
    (hundisputed : Undisputed (claimsAbout address (m.heard snapshots))) :
    (m.adopted others).row? address = (m.adopted snapshots).row? address := by
  have hothers : ¬Snapshot.Agreed others := fun hagreed => h (hagreed.perm hperm.symm)
  have hheard : (claimsAbout address (m.heard others)).Perm
      (claimsAbout address (m.heard snapshots)) :=
    ((hperm.flatMap_right Snapshot.members).append_right _).filter _
  rcases row?_adopted_of_not_agreed hsecluded h hremote with ⟨hnone, hrow⟩ | ⟨c, hc, hrow⟩
  · rcases row?_adopted_of_not_agreed hsecluded hothers hremote with ⟨-, hrow'⟩ | ⟨d, hd, -⟩
    · rw [hrow, hrow']
    · have hmem := hheard.mem_iff.mp hd.mem
      rw [hnone] at hmem
      exact absurd hmem List.not_mem_nil
  · rcases row?_adopted_of_not_agreed hsecluded hothers hremote with ⟨hnone, -⟩ | ⟨d, hd, hrow'⟩
    · have hmem := hheard.mem_iff.mpr hc.mem
      rw [hnone] at hmem
      exact absurd hmem List.not_mem_nil
    · -- both orders choose a highest claim, and an undisputed one says the same whichever it is
      have hd : Highest (claimsAbout address (m.heard snapshots)) d :=
        ⟨hheard.mem_iff.mp hd.mem, fun e he => hd.le e (hheard.mem_iff.mpr he)⟩
      have haddress : d.address = c.address :=
        (mem_claimsAbout.mp hd.mem).2.2.trans (mem_claimsAbout.mp hc.mem).2.2.symm
      have hincarnation : d.incarnation = c.incarnation :=
        UInt64.le_antisymm (hc.le d hd.mem) (hd.le c hc.mem)
      have hsame : d.toMember = c.toMember := by
        rw [Change.toMember, Change.toMember, haddress, hundisputed d c hd hc, hincarnation]
      rw [hrow, hrow', hsame]

/-! ### Snapshots that agree -/

/-- Where snapshots agree, what was held back is replayed as one batch. -/
theorem completeJoin_of_agreed (h : Snapshot.Agreed snapshots) (now : Clock) :
    m.completeJoin now snapshots = applyBatch now (m.adopted snapshots) m.gate.stash := by
  have hgate : (m.adopt snapshots).1.gate = m.gate := by
    refine gate_adopt_of_not_consumed ?_
    rw [Snapshot.reconcile_of_agreed h]
  rw [completeJoin, openGate_eq_update, hgate]
  rfl

/-- The replay begins with the row that the first snapshot lists. -/
theorem row?_adopted_of_agreed (hsecluded : m.Secluded) (h : Snapshot.Agreed snapshots)
    (hremote : address ≠ m.here) : (m.adopted snapshots).row? address =
      snapshots.head?.bind fun s => lastRow? address s.members := by
  show (m.adopt snapshots).1.row? address = _
  rw [row?_adopt hremote, hsecluded.row?_eq_none hremote, Option.or_none,
    Snapshot.reconcile_of_agreed h]
  cases snapshots <;> rfl

/-- The row that is adopted does not depend on the order of agreed snapshots, if they list the member
    alike. -/
theorem row?_adopted_of_alike {others : List Snapshot} (hsecluded : m.Secluded)
    (h : Snapshot.Agreed snapshots) (hperm : others.Perm snapshots) (hremote : address ≠ m.here)
    (halike : ∀ s ∈ snapshots, ∀ t ∈ snapshots,
      lastRow? address s.members = lastRow? address t.members) :
    (m.adopted others).row? address = (m.adopted snapshots).row? address := by
  rw [row?_adopted_of_agreed hsecluded h hremote,
    row?_adopted_of_agreed hsecluded (h.perm hperm) hremote]
  cases others with
  | nil => rw [List.nil_perm.mp hperm]
  | cons first' rest' =>
      cases snapshots with
      | nil => exact absurd hperm.length_eq (Nat.succ_ne_zero _)
      | cons first rest =>
          exact halike first' (hperm.mem_iff.mp List.mem_cons_self) first List.mem_cons_self

/-- A replay stops at a claim that the node is down, when no incarnation is left. -/
theorem completeJoin_eq_exhausted (h : Snapshot.Agreed snapshots)
    (hjoin : m.completeJoin now snapshots = .exhausted m') :
    ∃ before c after effects, m.gate.stash = before ++ c :: after ∧
      applyAll now (m.adopted snapshots) before = .done m' effects ∧ m'.Refutes c ∧
      m'.localIncarnation = lastIncarnation := by
  rw [completeJoin_of_agreed h, applyBatch] at hjoin
  rcases Attempt.andThen_eq_exhausted hjoin with hstop | ⟨m₁, effects, -, hlast⟩
  · obtain ⟨before, c, after, effects, hstash, hbefore, -, hrefutes, hspent⟩ :=
      applyAll_eq_exhausted hstop
    exact ⟨before, c, after, effects, hstash, applyAll_eq_done_iff.mpr hbefore, hrefutes, hspent⟩
  · cases hlast

/-- **A claim that was held back is covered, unless a departed row stood against it in its turn.** -/
theorem covers_or_outlasts_of_agreed (h : Snapshot.Agreed snapshots)
    (hjoin : m.completeJoin now snapshots = .done m' effects)
    (hstash : m.gate.stash = before ++ c :: after) (hremote : c.address ≠ m.here)
    (hnamed : ¬c.isMalformed) :
    ∃ row, m'.row? c.address = some row ∧
      (row.Covers c.toMember ∨ ∃ m₁ first old,
        applyAll now (m.adopted snapshots) before = .done m₁ first ∧
        m₁.row? c.address = some old ∧ Precedence.Outlasts old c.toMember) := by
  rw [completeJoin_of_agreed h, hstash] at hjoin
  obtain ⟨m₂, happlied, rfl⟩ := applyBatch_eq_done hjoin
  rw [(alike_conclude m₂ effects).row?]
  obtain ⟨row, hrow, houtcome⟩ :=
    happlied.covers_or_outlasts ((here_adopted m snapshots).symm ▸ hremote) hnamed
  refine ⟨row, hrow, houtcome.imp_right ?_⟩
  rintro ⟨m₁, first, old, hfirst, hold, houtlasts⟩
  exact ⟨m₁, first, old, applyAll_eq_done_iff.mpr hfirst, hold, houtlasts⟩

/-- The snapshots may come in any order. -/
theorem completeJoin_of_perm {others : List Snapshot} (hsecluded : m.Secluded)
    (h : Snapshot.Agreed snapshots) (hperm : others.Perm snapshots)
    (hjoin : m.completeJoin now snapshots = .done m' effects) :
    ∃ m'' effects', m.completeJoin now others = .done m'' effects' ∧
      ∀ address, address ≠ m.here →
        (∀ s ∈ snapshots, ∀ t ∈ snapshots,
          lastRow? address s.members = lastRow? address t.members) →
        m''.row? address = m'.row? address := by
  rw [completeJoin_of_agreed h] at hjoin
  obtain ⟨m₁, happlied, rfl⟩ := applyBatch_eq_done hjoin
  have hsame : SameOwn (m.adopted snapshots) (m.adopted others) := by
    constructor
    · rw [here_adopted, here_adopted]
    · rw [localRow?_adopted, localRow?_adopted]
  obtain ⟨m₂, effects', happlied'⟩ := happlied.transfer hsame
  refine ⟨m₂.conclude effects', effects', ?_, fun address hremote halike => ?_⟩
  · rw [completeJoin_of_agreed (h.perm hperm), applyBatch_of_applied happlied']
  · rw [(alike_conclude m₂ effects').row?, (alike_conclude m₁ effects).row?,
      happlied'.row?_eq ((here_adopted m others).symm ▸ hremote),
      happlied.row?_eq ((here_adopted m snapshots).symm ▸ hremote),
      row?_adopted_of_alike hsecluded h hperm hremote halike]

/-! ### What the joined table has -/

/-- **Every row of another member is that of a claim that was heard.** -/
theorem heard_of_row? {snapshots : List Snapshot} (hclosed : m.isReady = false)
    (hsecluded : m.Secluded) (hjoin : m.completeJoin now snapshots = .done m' effects)
    (hremote : address ≠ m.here) (hrow : m'.row? address = some row) :
    ∃ c ∈ claimsAbout address (m.heard snapshots), c.toMember = row := by
  by_cases hagreed : Snapshot.Agreed snapshots
  · rw [completeJoin_of_agreed hagreed] at hjoin
    obtain ⟨m₁, happlied, rfl⟩ := applyBatch_eq_done hjoin
    rw [(alike_conclude m₁ effects).row?] at hrow
    have htraced := happlied.traced ((here_adopted m snapshots).symm ▸ hremote)
    -- the row is the one that was adopted, or a claim that waited has replaced it
    rcases htraced.mem_course (List.mem_of_getLast? (htraced.last.trans hrow)) with hstart | hreplayed
    · rw [row?_adopted_of_agreed hsecluded hagreed hremote] at hstart
      obtain ⟨first, hfirst, hlisted⟩ := Option.bind_eq_some_iff.mp hstart
      obtain ⟨c, hlast, rfl⟩ := Option.map_eq_some_iff.mp hlisted
      obtain ⟨hmem, habout⟩ := mem_claimsAbout.mp (List.mem_of_getLast? hlast)
      have hheard : c ∈ m.heard snapshots :=
        List.mem_append_left _ (List.mem_flatMap.mpr ⟨first, List.mem_of_mem_head? hfirst, hmem⟩)
      exact ⟨c, mem_claimsAbout.mpr ⟨hheard, habout⟩, rfl⟩
    · obtain ⟨c, hc, rfl⟩ := hreplayed
      obtain ⟨hmem, habout⟩ := mem_claimsAbout.mp hc
      exact ⟨c, mem_claimsAbout.mpr ⟨List.mem_append_right _ hmem, habout⟩, rfl⟩
  · rw [completeJoin_of_not_agreed hclosed hagreed] at hjoin
    obtain ⟨rfl, -⟩ := Attempt.done.inj hjoin
    rcases row?_adopted_of_not_agreed hsecluded hagreed hremote with ⟨-, hnone⟩ | ⟨c, hc, hfound⟩
    · cases hnone.symm.trans hrow
    · exact ⟨c, hc.mem, Option.some.inj (hfound.symm.trans hrow)⟩

/-- **A node that has joined is no older than what it heard.**

    A row of another member is always that of a claim that was heard.

    If the snapshots did not agree, the join is completed, and the row of every member is as new as
    every claim about it. A claim would still override it at the row's own incarnation at most. If the
    newest claims about a member do not dispute its status, the hosts may have been joined in any order.

    If the snapshots agreed, the replay stops only where the node is called down and no incarnation is
    left. Otherwise a claim that was held back would still override its row only if one of the two
    recalls the other, or if a departed row stood against it in its turn. If the snapshots list a member
    alike, the hosts may have been joined in any order. -/
theorem joined_no_older (hclosed : m.isReady = false) (hsecluded : m.Secluded) (now : Clock)
    (snapshots : List Snapshot) :
    (∀ m' effects, m.completeJoin now snapshots = .done m' effects →
      ∀ address row, address ≠ m.here → m'.row? address = some row →
        ∃ c ∈ claimsAbout address (m.heard snapshots), c.toMember = row) ∧
    (¬Snapshot.Agreed snapshots →
      ∃ m', m.completeJoin now snapshots = .done m' [] ∧
        (∀ c ∈ m.heard snapshots, c.address ≠ m.here → ¬c.isMalformed →
          ∃ row, m'.row? c.address = some row ∧ c.incarnation ≤ row.incarnation ∧
            (Precedence.overrides row c → c.incarnation = row.incarnation)) ∧
        ∀ others : List Snapshot, others.Perm snapshots →
          ∃ m'', m.completeJoin now others = .done m'' [] ∧
            ∀ address, address ≠ m.here →
              Undisputed (claimsAbout address (m.heard snapshots)) →
              m''.row? address = m'.row? address) ∧
    (Snapshot.Agreed snapshots →
      (∀ m', m.completeJoin now snapshots = .exhausted m' →
        ∃ before c after effects, m.gate.stash = before ++ c :: after ∧
          applyAll now (m.adopted snapshots) before = .done m' effects ∧ m'.Refutes c ∧
          m'.localIncarnation = lastIncarnation) ∧
      ∀ m' effects, m.completeJoin now snapshots = .done m' effects →
        (∀ before c after, m.gate.stash = before ++ c :: after → c.address ≠ m.here →
          ¬c.isMalformed →
          ∃ row, m'.row? c.address = some row ∧
            (Precedence.overrides row c →
              c.toMember.Recalls row ∨ row.Recalls c.toMember ∨
              ∃ m₁ first old, applyAll now (m.adopted snapshots) before = .done m₁ first ∧
                m₁.row? c.address = some old ∧ Precedence.Outlasts old c.toMember)) ∧
        ∀ others : List Snapshot, others.Perm snapshots →
          ∃ m'' effects', m.completeJoin now others = .done m'' effects' ∧
            ∀ address, address ≠ m.here →
              (∀ s ∈ snapshots, ∀ t ∈ snapshots,
                lastRow? address s.members = lastRow? address t.members) →
              m''.row? address = m'.row? address) := by
  refine ⟨?heard, ?merged, ?agreed⟩
  case heard =>
    intro m' effects hjoin address row hremote hrow
    exact heard_of_row? hclosed hsecluded hjoin hremote hrow
  case merged =>
    intro hmerged
    refine ⟨m.adopted snapshots, completeJoin_of_not_agreed hclosed hmerged now, ?_, ?_⟩
    · intro c hc hremote hnamed
      obtain ⟨row, hrow, hle⟩ := adopted_no_older hsecluded hmerged hc hremote hnamed
      refine ⟨row, hrow, hle, fun hover => ?_⟩
      exact UInt64.le_antisymm hle (Precedence.incarnation_le_of_overrides hover)
    · intro others hperm
      have hothers : ¬Snapshot.Agreed others := fun hagreed => hmerged (hagreed.perm hperm.symm)
      refine ⟨m.adopted others, completeJoin_of_not_agreed hclosed hothers now, ?_⟩
      intro address hremote hundisputed
      exact row?_adopted_of_perm hsecluded hmerged hperm hremote hundisputed
  case agreed =>
    intro hagreed
    refine ⟨fun m' hstop => completeJoin_eq_exhausted hagreed hstop, ?_⟩
    intro m' effects hjoin
    refine ⟨?_, fun others hperm => completeJoin_of_perm hsecluded hagreed hperm hjoin⟩
    intro before c after hstash hremote hnamed
    obtain ⟨row, hrow, houtcome⟩ :=
      covers_or_outlasts_of_agreed hagreed hjoin hstash hremote hnamed
    refine ⟨row, hrow, fun hover => ?_⟩
    rcases houtcome with hcovers | houtlasted
    · exact (Precedence.recalls_of_overrides hcovers hover).imp_right Or.inl
    · exact Or.inr (Or.inr houtlasted)

/-- The node `a` holds back that `b` is suspect. From snapshots that do not agree it learns that `b` is
    faulty since, from one alone that `b` is alive at the incarnation at which it is suspect. -/
theorem joined_no_older_after_failure :
    ∃ m merged replayed,
      (empty "a" hash32 .none).update 7 [⟨"b", .suspect, 5, "c", 1, 0⟩] false = .done m [] ∧
      m.completeJoin 9
          [⟨some 1, [⟨"b", .alive, 4, "b", 4, 0⟩]⟩, ⟨some 2, [⟨"b", .faulty, 6, "c", 1, 0⟩]⟩] =
        .done merged [] ∧
      (∃ row, merged.row? "b" = some row ∧ 5 ≤ row.incarnation) ∧
      m.completeJoin 9 [⟨some 1, [⟨"b", .alive, 5, "b", 5, 0⟩]⟩] =
        .done replayed [⟨"b", .suspect, 5, "c", 1, 0⟩] ∧
      ∃ row, replayed.row? "b" = some row ∧
        ¬Precedence.overrides row ⟨"b", .suspect, 5, "c", 1, 0⟩ := by
  have hsecluded :
      ((empty "a" hash32 .none).holdBack [⟨"b", .suspect, 5, "c", 1, 0⟩]).Secluded :=
    fun row hrow => absurd hrow List.not_mem_nil
  have hdiffer : ¬Snapshot.Agreed
      [⟨some 1, [⟨"b", .alive, 4, "b", 4, 0⟩]⟩, ⟨some 2, [⟨"b", .faulty, 6, "c", 1, 0⟩]⟩] := by
    rw [← Snapshot.agree_iff]
    decide
  have hsame : Snapshot.Agreed [⟨some 1, [⟨"b", .alive, 5, "b", 5, 0⟩]⟩] := by
    rw [← Snapshot.agree_iff]
    decide
  obtain ⟨merged, hdone, hnewer, -⟩ := (joined_no_older rfl hsecluded 9 _).2.1 hdiffer
  have hreplay : completeJoin ((empty "a" hash32 .none).holdBack [⟨"b", .suspect, 5, "c", 1, 0⟩]) 9
      [⟨some 1, [⟨"b", .alive, 5, "b", 5, 0⟩]⟩] = .done _ [⟨"b", .suspect, 5, "c", 1, 0⟩] :=
    Attempt.eq_done_of_result? (by decide +kernel)
  obtain ⟨hheard, -⟩ := ((joined_no_older rfl hsecluded 9 _).2.2 hsame).2 _ _ hreplay
  refine ⟨_, merged, _, rfl, hdone, ?_, hreplay, ?_⟩
  · obtain ⟨row, hrow, hle, -⟩ :=
      hnewer ⟨"b", .suspect, 5, "c", 1, 0⟩ (by decide) (by decide) (by decide)
    exact ⟨row, hrow, hle⟩
  · obtain ⟨row, hrow, hover⟩ :=
      hheard [] ⟨"b", .suspect, 5, "c", 1, 0⟩ [] rfl (by decide) (by decide)
    refine ⟨row, hrow, fun h => ?_⟩
    rcases hover h with ⟨hleave, -⟩ | ⟨-, htombstone, -⟩ | ⟨m₁, first, old, hfirst, hold, houtlasts⟩
    · cases hleave
    · cases htombstone
    · -- nothing was replayed before, so it stood against the row that was adopted
      obtain ⟨rfl, -⟩ := Attempt.done.inj hfirst
      obtain rfl : ⟨"b", .alive, 5⟩ = old := Option.some.inj hold
      exact absurd houtlasts.1 (by decide)

/-- The node `a` holds back that `x` left, that it left again later, and that it was alive in between.
    The later departure does not override the earlier one, and once `x` is alive it has gone by. -/
theorem later_departure_missed :
    ∃ m m' effects row,
      (empty "a" hash32 .none).update 7
          [⟨"x", .leave, 5, "x", 5, 0⟩, ⟨"x", .leave, 8, "x", 8, 0⟩, ⟨"x", .alive, 6, "x", 6, 0⟩]
          false = .done m [] ∧
      m.isReady = false ∧ m.Secluded ∧ m.completeJoin 9 [⟨some 1, []⟩] = .done m' effects ∧
      ⟨"x", .leave, 8, "x", 8, 0⟩ ∈ m.gate.stash ∧ "x" ≠ m.here ∧
      m'.row? "x" = some row ∧ Precedence.overrides row ⟨"x", .leave, 8, "x", 8, 0⟩ := by
  have hreplay : completeJoin ((empty "a" hash32 .none).holdBack
        [⟨"x", .leave, 5, "x", 5, 0⟩, ⟨"x", .leave, 8, "x", 8, 0⟩, ⟨"x", .alive, 6, "x", 6, 0⟩]) 9
      [⟨some 1, []⟩] =
        .done _ [⟨"x", .leave, 5, "x", 5, 0⟩, ⟨"x", .alive, 6, "x", 6, 0⟩] :=
    Attempt.eq_done_of_result? (by decide +kernel)
  refine ⟨_, _, _, ⟨"x", .alive, 6⟩, rfl, rfl, ?_, hreplay, ?_, ?_, ?_, ?_⟩
  · exact fun row hrow => absurd hrow List.not_mem_nil
  · decide
  · decide
  · decide +kernel
  · decide

end

end Membership

/-- A node that completes its bootstrap completes the join of its table. -/
theorem Node.completeBootstrap_eq_settle (n : Node) (now : Moment) (snapshots : List Snapshot) :
    n.completeBootstrap now snapshots =
      (n.adopt now snapshots).1.settle now (n.membership.completeJoin now.wall snapshots) := by
  have hadopted : (n.adopt now snapshots).1.membership = (n.membership.adopt snapshots).1 :=
    membership_spread _ _ _
  rw [completeBootstrap, openGate]
  rw [hadopted]
  rfl

end GossipRing
