import GossipRing.Proofs.Convergence
import Mathlib.Data.List.Chain
import Mathlib.Data.List.Perm.Subperm

/-!
# How the row of a member moves

Toward: whether the row of another member can come back to what it was. What takes effect on a row
raises its standing, with one exception: leave and tombstone override each other at one incarnation.

* **`Member.Recalls`** — a departure at the incarnation of a tombstone. `overrides_cases`: whatever
  overrides a row stands above it or recalls it.
* **`course`** — the rows that a member goes through. `Traced`: what a run of deliveries says about
  the course of one member, step by step (`Applied.traced`, `Traced.append`) and over the whole run
  (`traced_deliver`).
* **`Circulates`** — the effects of deliveries that are made of some claims only.
* **`Reopens`** — the claims include a departure at the incarnation of a tombstone. `rises_iff`,
  `nodup_iff`, `bounded_iff`: this alone makes a row sink, come back, and change without end.
-/

namespace GossipRing

/-- Of the departures only a leave is not worse than every other status, and only a tombstone is
    worse than a leave. -/
theorem Status.eq_of_departed {s t : Status} (ht : t.IsDeparted) (hne : s ≠ t)
    (hrank : ¬s.rank < t.rank) : t = .leave ∧ s = .tombstone := by
  cases s <;> cases t <;> simp_all [IsDeparted, rank]

namespace Member

/-- The row says that the member left at the incarnation at which the older row has it reaped. -/
def Recalls (row old : Member) : Prop :=
  row.status = .leave ∧ old.status = .tombstone ∧ row.incarnation = old.incarnation

instance (row old : Member) : Decidable (row.Recalls old) := inferInstanceAs (Decidable (_ ∧ _))

/-- The row stands above the older one, or recalls it. -/
def Supersedes (row old : Member) : Prop := old.standing < row.standing ∨ row.Recalls old

instance (row old : Member) : Decidable (row.Supersedes old) :=
  decidable_of_iff ((old.incarnation < row.incarnation ∨
    old.incarnation = row.incarnation ∧ old.status.rank < row.status.rank) ∨ row.Recalls old)
    (by rw [Supersedes, standing_lt_iff])

/-- A row that recalls a tombstone stands below it. -/
theorem Recalls.standing_lt {row old : Member} (h : row.Recalls old) :
    row.standing < old.standing := by
  obtain ⟨hleave, htombstone, hincarnation⟩ := h
  refine standing_lt_iff.mpr (Or.inr ⟨hincarnation, ?_⟩)
  rw [hleave, htombstone]
  decide

/-- What supersedes a row is at least as new. -/
theorem Supersedes.incarnation_le {row old : Member} (h : row.Supersedes old) :
    old.incarnation ≤ row.incarnation := by
  rcases h with hlt | ⟨-, -, hincarnation⟩
  · rcases standing_lt_iff.mp hlt with hnewer | ⟨hsame, -⟩
    · exact UInt64.le_of_lt hnewer
    · exact UInt64.le_of_eq hsame
  · exact UInt64.le_of_eq hincarnation.symm

end Member

namespace Precedence

variable {m : Member} {c : Change}

/-- **What overrides a row stands above it, or recalls it.** -/
theorem supersedes_of_overrides (h : overrides m c) : c.toMember.Supersedes m := by
  by_cases hnewer : m.incarnation < c.incarnation
  · exact Or.inl (Member.standing_lt_iff.mpr (Or.inl hnewer))
  · have hsame : m.incarnation = c.incarnation :=
      UInt64.le_antisymm (incarnation_le_of_overrides h) (UInt64.not_lt.mp hnewer)
    rcases c.status.alive_or_doubted_or_departed with hc | hc | hc
    · exact absurd ((overrides_iff_of_alive hc).mp h) hnewer
    · exact Or.inl ((overrides_iff_of_doubted hc).mp h).2
    · have hne : m.status ≠ c.status := ((overrides_iff_of_departed hc).mp h).1
      by_cases hworse : m.status.rank < c.status.rank
      · exact Or.inl (Member.standing_lt_iff.mpr (Or.inr ⟨hsame, hworse⟩))
      · obtain ⟨hleave, htombstone⟩ := Status.eq_of_departed hc hne hworse
        exact Or.inr ⟨hleave, htombstone, hsame.symm⟩

end Precedence

namespace Membership

/-! ## The course of a member -/

/-- Those of the claims that are about one member. -/
def concerning (address : String) (claims : List Change) : List Change :=
  claims.filter fun c => c.address = address

/-- The rows that a member goes through: the one it has, if any, and those that took effect. -/
def course (address : String) (start : Option Member) (effects : List Change) : List Member :=
  start.toList ++ (concerning address effects).map Change.toMember

/-- Each row supersedes the one before it. -/
def Ascends (rows : List Member) : Prop := rows.IsChain fun old row => row.Supersedes old

section

variable {now : Clock} {m m' m₁ : Membership} {address : String} {c : Change}
  {claims claims' rest effects effects' : List Change} {start : Option Member}

theorem concerning_cons_self (h : c.address = address) :
    concerning address (c :: rest) = c :: concerning address rest := by
  simp [concerning, h]

theorem concerning_cons_of_ne (h : c.address ≠ address) :
    concerning address (c :: rest) = concerning address rest := by
  simp [concerning, h]

theorem concerning_append :
    concerning address (effects ++ effects') =
      concerning address effects ++ concerning address effects' :=
  List.filter_append effects effects'

theorem course_append : course address start (effects ++ effects') =
    course address start effects ++ (concerning address effects').map Change.toMember := by
  rw [course, course, concerning_append, List.map_append, List.append_assoc]

/-- A course goes on from its last row. -/
theorem Ascends.append {rows more : List Member} (h : Ascends rows)
    (hmore : Ascends (rows.getLast?.toList ++ more)) : Ascends (rows ++ more) := by
  rw [Ascends, List.isChain_append] at hmore ⊢
  obtain ⟨-, hchain, hjoin⟩ := hmore
  refine ⟨h, hchain, ?_⟩
  intro old hold row hrow
  refine hjoin old ?_ row hrow
  obtain hlast := Option.mem_def.mp hold
  rw [hlast]
  rfl

/-- Effects that were claimed take the row of a member from the first one to the second one, each of
    them superseding the row it finds. -/
structure Traced (address : String) (claims : List Change) (row : Option Member)
    (effects : List Change) (row' : Option Member) : Prop where
  ascends : Ascends (course address row effects)
  last : (course address row effects).getLast? = row'
  claimed : ∀ e ∈ concerning address effects, e ∈ claimsAbout address claims

variable {row row₁ row' : Option Member}

theorem Traced.refl (address : String) (claims : List Change) (row : Option Member) :
    Traced address claims row [] row where
  ascends := by
    cases row with
    | none => exact .nil
    | some r => exact .singleton r
  last := by cases row <;> rfl
  claimed _ he := absurd he List.not_mem_nil

/-- Two traces make one, if the second starts with the row that the first ends with. -/
theorem Traced.append (h : Traced address claims row effects row₁)
    (h' : Traced address claims row₁ effects' row') :
    Traced address claims row (effects ++ effects') row' where
  ascends := by
    rw [course_append]
    refine h.ascends.append ?_
    rw [h.last]
    exact h'.ascends
  last := by
    rw [course_append, List.getLast?_append, h.last, ← h'.last, course, List.getLast?_append]
    cases row₁ <;> rfl
  claimed e he := by
    rw [concerning_append] at he
    rcases List.mem_append.mp he with he | he
    · exact h.claimed e he
    · exact h'.claimed e he

/-- More may have been claimed. -/
theorem Traced.mono (h : Traced address claims row effects row')
    (hclaims : ∀ c ∈ claims, c ∈ claims') : Traced address claims' row effects row' where
  ascends := h.ascends
  last := h.last
  claimed e he := by
    obtain ⟨hmem, habout⟩ := mem_claimsAbout.mp (h.claimed e he)
    exact mem_claimsAbout.mpr ⟨hclaims e hmem, habout⟩

/-- One claim that takes effect. -/
theorem Traced.single (hnamed : ¬c.isMalformed)
    (h : ∀ old, row = some old → Precedence.overrides old c) :
    Traced c.address [c] row [c] (some c.toMember) where
  ascends := by
    rw [course, concerning_cons_self rfl]
    cases row with
    | none => exact .singleton c.toMember
    | some old =>
        refine List.isChain_cons_cons.mpr ⟨?_, .singleton c.toMember⟩
        exact Precedence.supersedes_of_overrides (h old rfl)
  last := by
    rw [course, concerning_cons_self rfl]
    exact List.getLast?_concat
  claimed e he := by
    rw [concerning_cons_self rfl] at he
    obtain rfl := List.mem_singleton.mp he
    exact mem_claimsAbout.mpr ⟨List.mem_singleton_self e, hnamed, rfl⟩

/-- An effect on another member. -/
theorem Traced.other (hne : c.address ≠ address) (h : Traced address claims row effects row') :
    Traced address claims row (c :: effects) row' where
  ascends := by
    rw [course, concerning_cons_of_ne hne]
    exact h.ascends
  last := by
    rw [course, concerning_cons_of_ne hne]
    exact h.last
  claimed := by
    rw [concerning_cons_of_ne hne]
    exact h.claimed

/-- **A batch takes the row of another member on, from one that is superseded to the next.** -/
theorem Applied.traced (h : Applied now m claims m' effects) (hremote : address ≠ m.here) :
    Traced address claims (m.row? address) effects (m'.row? address) := by
  induction h with
  | nil => exact .refl address [] _
  | ignore _ _ ih => exact (ih hremote).mono fun c => List.mem_cons_of_mem _
  | @accept now m m' c rest effects hnamed hc _ ih =>
      rw [here_put] at ih
      have hrest := (ih hremote).mono fun d => List.mem_cons_of_mem c
      rw [row?_put] at hrest
      -- only a claim about the address adds to its trace
      by_cases habout : c.address = address
      · subst habout
        rw [if_pos (show c.address = c.toMember.address from rfl)] at hrest
        have hfirst : Traced c.address [c] (m.row? c.address) [c] (some c.toMember) :=
          .single hnamed fun old hold => ((accepts_iff_of_some hold).mp hc).1
        refine Traced.append (hfirst.mono ?_) hrest
        intro d hd
        exact List.mem_singleton.mp hd ▸ List.mem_cons_self
      · rw [if_neg (show ¬address = c.toMember.address from fun h => habout h.symm)] at hrest
        exact hrest.other habout
  | @refute now m m' c rest effects inc _ _ _ _ ih =>
      rw [here_put] at ih
      have hrest := (ih hremote).mono fun d => List.mem_cons_of_mem c
      rw [row?_put, if_neg (show ¬address = (m.refutation inc now).toMember.address from hremote)]
        at hrest
      exact hrest.other (Ne.symm hremote)

/-- **So does every run of deliveries.** -/
theorem traced_deliver {deliveries : List Delivery} (hready : m.isReady) (hremote : address ≠ m.here)
    (h : m.deliver deliveries = .done m' effects) :
    Traced address (delivered deliveries) (m.row? address) effects (m'.row? address) := by
  induction deliveries generalizing m effects with
  | nil =>
      obtain ⟨rfl, rfl⟩ := Attempt.done.inj h
      exact .refl address [] _
  | cons d rest ih =>
      rw [deliver] at h
      obtain ⟨m₁, first, hupdate, hrest⟩ := Attempt.andThen_eq_done h
      obtain ⟨more, hdone, rfl⟩ := Attempt.map_eq_done hrest
      rw [update, hready, Bool.true_or, if_pos rfl] at hupdate
      obtain ⟨m₂, happlied, rfl⟩ := applyBatch_eq_done hupdate
      have halike := alike_conclude m₂ first
      have hfirst := (happlied.traced hremote).mono fun c => List.mem_append_left (delivered rest)
      rw [← halike.row?] at hfirst
      -- the gate stays open and the table is still that of the same member
      have hready₂ : (m₂.conclude first).isReady := by
        rw [isReady, gate_conclude, happlied.gate_eq]
        exact hready
      have hremote₂ : address ≠ (m₂.conclude first).here := by
        rw [halike.here, happlied.here_eq]
        exact hremote
      have hmore := (ih hready₂ hremote₂ hdone).mono fun c => List.mem_append_right d.claims
      exact hfirst.append hmore

/-! ## Rows that come back -/

/-- The table takes in deliveries that are made of these claims, with these effects. -/
def Circulates (m : Membership) (claims effects : List Change) (m' : Membership) : Prop :=
  ∃ deliveries, (∀ c ∈ delivered deliveries, c ∈ claims) ∧ m.deliver deliveries = .done m' effects

/-- One of the claims recalls one of the rows, and the member is not recorded at a newer
    incarnation. -/
def Reopens (start : Option Member) (rows : Set Member) (claims : List Change) : Prop :=
  ∃ c ∈ claims, (∀ old, start = some old → old.incarnation ≤ c.incarnation) ∧
    ∃ row ∈ rows, c.toMember.Recalls row

theorem Circulates.traced (hready : m.isReady) (hremote : address ≠ m.here)
    (h : Circulates m claims effects m') :
    Traced address claims (m.row? address) effects (m'.row? address) := by
  obtain ⟨deliveries, hclaims, hdone⟩ := h
  exact (traced_deliver hready hremote hdone).mono hclaims

/-- Deliveries can be cut in two at any place. -/
theorem deliver_append (m : Membership) (first second : List Delivery) :
    m.deliver (first ++ second) = (m.deliver first).andThen fun m effects =>
      (m.deliver second).map fun more => effects ++ more := by
  induction first generalizing m with
  | nil =>
      show m.deliver second = (m.deliver second).map id
      cases m.deliver second <;> rfl
  | cons d rest ih =>
      rw [List.cons_append, deliver, deliver]
      cases m.update d.now d.claims d.localAlive with
      | exhausted m₁ => rfl
      | done m₁ effects =>
          rw [Attempt.andThen_done, Attempt.andThen_done, ih]
          cases m₁.deliver rest with
          | exhausted m₂ => rfl
          | done m₂ more =>
              rw [Attempt.andThen_done, Attempt.map_done, Attempt.andThen_done]
              cases m₂.deliver second with
              | exhausted m₃ => rfl
              | done m₃ last =>
                  simp only [Attempt.map_done, List.append_assoc]

theorem Circulates.trans (h : Circulates m claims effects m₁)
    (h' : Circulates m₁ claims effects' m') : Circulates m claims (effects ++ effects') m' := by
  obtain ⟨first, hfirst, hdone⟩ := h
  obtain ⟨second, hsecond, hdone'⟩ := h'
  refine ⟨first ++ second, ?_, ?_⟩
  · intro c hc
    rw [delivered, List.flatMap_append] at hc
    rcases List.mem_append.mp hc with hc | hc
    · exact hfirst c hc
    · exact hsecond c hc
  · rw [deliver_append, hdone, Attempt.andThen_done, hdone', Attempt.map_done]

/-! ### Where nothing is recalled -/

/-- The first row of a course is at the smallest incarnation. -/
theorem Ascends.incarnation_le {first : Member} {rows : List Member}
    (h : Ascends (first :: rows)) {last : Member} (hlast : last ∈ rows) :
    first.incarnation ≤ last.incarnation := by
  induction rows generalizing first with
  | nil => exact absurd hlast List.not_mem_nil
  | cons next rest ih =>
      obtain ⟨hnext, hrest⟩ := List.isChain_cons_cons.mp h
      rcases List.mem_cons.mp hlast with rfl | hlast
      · exact hnext.incarnation_le
      · exact UInt64.le_trans hnext.incarnation_le (ih hrest hlast)

/-- A course in which no row recalls another one rises. -/
theorem Ascends.rises {rows : List Member} (h : Ascends rows)
    (hnot : ∀ new ∈ rows.tail, ∀ old ∈ rows, ¬new.Recalls old) :
    (rows.map Member.standing).Pairwise (· < ·) := by
  rw [← List.isChain_iff_pairwise, List.isChain_map]
  refine h.imp_of_mem_tail_imp ?_
  intro old new hold hnew hsupersedes
  exact hsupersedes.resolve_right (hnot new hnew old hold)

theorem nodup_of_rises {rows : List Member} (h : (rows.map Member.standing).Pairwise (· < ·)) :
    rows.Nodup := by
  refine List.Nodup.of_map Member.standing (h.imp ?_)
  intro a b hlt
  exact hlt.ne

namespace Traced

variable (h : Traced address claims row effects row')

include h

/-- The rows that took effect were claimed. -/
theorem mem_effects {r : Member} (hr : r ∈ (concerning address effects).map Change.toMember) :
    r ∈ candidates none (claimsAbout address claims) := by
  obtain ⟨e, he, rfl⟩ := List.mem_map.mp hr
  exact Or.inr ⟨e, h.claimed e he, rfl⟩

/-- Every row on the course is the one at the start or is told by one of the claims. -/
theorem mem_course {r : Member} (hr : r ∈ course address row effects) :
    r ∈ candidates row (claimsAbout address claims) := by
  rcases List.mem_append.mp hr with hstart | heffect
  · exact Or.inl (Option.mem_toList.mp hstart)
  · exact Or.inr ((h.mem_effects heffect).resolve_left fun hnone => nomatch hnone)

/-- What took effect is no older than the row that the member had. -/
theorem incarnation_le {r old : Member} (hr : r ∈ (concerning address effects).map Change.toMember)
    (hold : row = some old) : old.incarnation ≤ r.incarnation := by
  subst hold
  exact Ascends.incarnation_le h.ascends hr

/-- What took effect recalls no row of which that was not claimed. -/
theorem not_recalls {rows : Set Member} (hnot : ¬Reopens row rows (claimsAbout address claims))
    {r old : Member} (hr : r ∈ (concerning address effects).map Change.toMember)
    (hold : old ∈ rows) : ¬r.Recalls old := by
  intro hrecalls
  have hle : ∀ first, row = some first → first.incarnation ≤ r.incarnation :=
    fun first => h.incarnation_le hr
  obtain ⟨e, he, rfl⟩ := List.mem_map.mp hr
  exact hnot ⟨e, h.claimed e he, hle, old, hold, hrecalls⟩

theorem tail_course {r : Member} (hr : r ∈ (course address row effects).tail) :
    r ∈ (concerning address effects).map Change.toMember := by
  cases row with
  | none => exact List.mem_of_mem_tail hr
  | some old => exact hr

/-- **Unless a claim recalls a row, every change raises the standing.** -/
theorem rises (hnot : ¬Reopens row (candidates row (claimsAbout address claims))
      (claimsAbout address claims)) :
    ((course address row effects).map Member.standing).Pairwise (· < ·) := by
  refine h.ascends.rises ?_
  intro new hnew old hold
  exact h.not_recalls hnot (h.tail_course hnew) (h.mem_course hold)

/-- Unless one claim recalls another, the rows that take effect rise. -/
theorem effects_rise (hnot : ¬Reopens row (candidates none (claimsAbout address claims))
      (claimsAbout address claims)) :
    (((concerning address effects).map Change.toMember).map Member.standing).Pairwise (· < ·) := by
  have hascends : Ascends ((concerning address effects).map Change.toMember) :=
    List.IsChain.right_of_append h.ascends
  refine hascends.rises ?_
  intro new hnew old hold
  exact h.not_recalls hnot (List.mem_of_mem_tail hnew) (h.mem_effects hold)

/-- **Unless one claim recalls another, no row comes back.** -/
theorem nodup (hnot : ¬Reopens row (candidates none (claimsAbout address claims))
      (claimsAbout address claims)) : (course address row effects).Nodup := by
  have heffects := nodup_of_rises (h.effects_rise hnot)
  cases row with
  | none => exact heffects
  | some old =>
      refine List.nodup_cons.mpr ⟨fun hback => ?_, heffects⟩
      -- the first row was claimed, too, so that it is not recalled either
      have hclaimed : candidates (some old) (claimsAbout address claims) =
          candidates none (claimsAbout address claims) := by
        ext r
        constructor
        · rintro (hr | hr)
          · exact Option.some.inj hr ▸ h.mem_effects hback
          · exact Or.inr hr
        · rintro (hr | hr)
          · cases hr
          · exact Or.inr hr
      have hall := nodup_of_rises (h.rises (hclaimed ▸ hnot))
      exact (List.nodup_cons.mp hall).1 hback

/-- **Unless one claim recalls another, each is applied at most once.** -/
theorem length_le (hnot : ¬Reopens row (candidates none (claimsAbout address claims))
      (claimsAbout address claims)) :
    (concerning address effects).length ≤ (claimsAbout address claims).length := by
  have heffects := nodup_of_rises (h.effects_rise hnot)
  have hsub : (concerning address effects).map Change.toMember ⊆
      (claimsAbout address claims).map Change.toMember := by
    intro r hr
    obtain ⟨e, he, rfl⟩ := List.mem_map.mp hr
    exact List.mem_map_of_mem (h.claimed e he)
  have hlength := (List.subperm_of_subset heffects hsub).length_le
  rw [List.length_map, List.length_map] at hlength
  exact hlength

end Traced

/-! ### Where a claim recalls another -/

/-- The table is ready, and has this row of another member. -/
structure Records (m : Membership) (row : Member) : Prop where
  ready : m.isReady
  remote : row.address ≠ m.here
  row : m.row? row.address = some row

/-- A claim that overrides the row takes effect when it is delivered. -/
theorem Records.update {old : Member} (h : Records m old) (now : Clock) (hnamed : ¬c.isMalformed)
    (habout : c.address = old.address) (hover : Precedence.overrides old c) :
    ∃ m', m.update now [c] false = .done m' [c] ∧ Records m' c.toMember := by
  have hremote : c.address ≠ m.here := habout ▸ h.remote
  have hrow : m.row? c.address = some old := by
    rw [habout, h.row]
  have haccepts : m.Accepts c :=
    (accepts_iff_of_some hrow).mpr ⟨hover, fun hlocal => absurd hlocal hremote⟩
  have happlied : Applied now m [c] (m.put c.toMember) [c] := .accept hnamed haccepts .nil
  have halike := alike_conclude (m.put c.toMember) [c]
  refine ⟨_, update_of_applied h.ready false happlied, ?_, ?_, ?_⟩
  · rw [isReady, gate_conclude, gate_put]
    exact h.ready
  · rw [halike.here, here_put]
    exact hremote
  · rw [halike.row?, row?_put]
    exact if_pos rfl

/-- A single claim that overrides the recorded row circulates to its own row. -/
theorem Records.circulates {old : Member} (h : Records m old) (hc : c ∈ claimsAbout old.address claims)
    (hover : Precedence.overrides old c) :
    ∃ m', Circulates m claims [c] m' ∧ Records m' c.toMember := by
  obtain ⟨hmem, hnamed, habout⟩ := mem_claimsAbout.mp hc
  obtain ⟨m', hupdate, hrecords⟩ := h.update 0 hnamed habout hover
  refine ⟨m', ⟨[⟨0, [c], false⟩], ?_, ?_⟩, hrecords⟩
  · intro d hd
    rw [delivered, List.flatMap_singleton] at hd
    exact List.mem_singleton.mp hd ▸ hmem
  · rw [deliver, hupdate]
    rfl

section

variable {d : Change} (hc : c ∈ claimsAbout address claims) (hd : d ∈ claimsAbout address claims)
  (hrecalls : c.toMember.Recalls d.toMember)

include hrecalls in
/-- A leave and a tombstone of one incarnation override each other. -/
theorem overrides_of_recalls :
    Precedence.overrides d.toMember c ∧ Precedence.overrides c.toMember d := by
  obtain ⟨hleave, htombstone, hincarnation⟩ := hrecalls
  have hleft : c.status = .leave := hleave
  have hreaped : d.status = .tombstone := htombstone
  have hsame : c.incarnation = d.incarnation := hincarnation
  constructor
  · rw [Precedence.overrides_iff_of_departed (Or.inl hleft), hleft]
    exact ⟨by simp [Change.toMember, hreaped], UInt64.le_of_eq hsame.symm⟩
  · rw [Precedence.overrides_iff_of_departed (Or.inr hreaped), hreaped]
    exact ⟨by simp [Change.toMember, hleft], UInt64.le_of_eq hsame⟩

include hrecalls in
/-- After both of them a row that was not newer says that the member was reaped. -/
theorem takeClaim_recalled (hle : ∀ old, start = some old → old.incarnation ≤ c.incarnation) :
    takeClaim (takeClaim start c) d = some d.toMember := by
  have hover := (overrides_of_recalls hrecalls).2
  cases start with
  | none => exact if_pos hover
  | some old =>
      have hleft : c.status = .leave := hrecalls.1
      have hreaped : d.status = .tombstone := hrecalls.2.1
      have hsame : c.incarnation = d.incarnation := hrecalls.2.2
      have hfirst := Precedence.overrides_iff_of_departed (m := old) (Or.inl hleft)
      by_cases htakes : Precedence.overrides old c
      · show takeClaim (if Precedence.overrides old c then _ else _) d = _
        rw [if_pos htakes]
        exact if_pos hover
      · -- it stands against the leave, so it says the same
        have hold : old.status = .leave := by
          by_contra hne
          exact htakes (hfirst.mpr ⟨hleft ▸ hne, hle old rfl⟩)
        show takeClaim (if Precedence.overrides old c then _ else _) d = _
        rw [if_neg htakes]
        refine if_pos ((Precedence.overrides_iff_of_departed (Or.inr hreaped)).mpr ⟨?_, ?_⟩)
        · rw [hold, hreaped]
          decide
        · exact hsame ▸ hle old rfl

include hc hd hrecalls

/-- The tombstone can be reached from every row that is not newer. -/
theorem exists_reaped (hready : m.isReady) (hremote : address ≠ m.here)
    (hle : ∀ old, m.row? address = some old → old.incarnation ≤ c.incarnation) :
    ∃ effects m', Circulates m claims effects m' ∧ Records m' d.toMember := by
  obtain ⟨hmem, hnamed, rfl⟩ := mem_claimsAbout.mp hc
  obtain ⟨hmem', hnamed', habout⟩ := mem_claimsAbout.mp hd
  have hall : ∀ e ∈ delivered [⟨0, [c, d], false⟩], e = c ∨ e = d := by
    intro e he
    simpa [delivered] using he
  have hothers : ∀ e ∈ delivered [⟨0, [c, d], false⟩], e.address ≠ m.here := by
    intro e he
    rcases hall e he with rfl | rfl
    · exact hremote
    · rw [habout]
      exact hremote
  -- one delivery of the departure and then of the tombstone is enough
  obtain ⟨m', effects, hdone, htaken⟩ := exists_deliver hready hothers
  have hrow := htaken.row c.address hremote
  have hclaims : claimsAbout c.address (delivered [⟨0, [c, d], false⟩]) = [c, d] := by
    simp [delivered, claimsAbout, hnamed, hnamed', habout]
  rw [hclaims, List.foldl_cons, List.foldl_cons, List.foldl_nil, takeClaim_recalled hrecalls hle]
    at hrow
  refine ⟨effects, m', ⟨_, ?_, hdone⟩, ?_, ?_, ?_⟩
  · intro e he
    rcases hall e he with rfl | rfl
    · exact hmem
    · exact hmem'
  · rw [isReady, htaken.gate]
    exact hready
  · show d.address ≠ m'.here
    rw [htaken.here, habout]
    exact hremote
  · show m'.row? d.address = _
    rw [habout, hrow]

/-- From the tombstone the row goes to the leave and back. -/
theorem Records.exists_return (h : Records m d.toMember) :
    ∃ m', Circulates m claims [c, d] m' ∧ Records m' d.toMember := by
  have habout : c.address = d.address :=
    (mem_claimsAbout.mp hc).2.2.trans (mem_claimsAbout.mp hd).2.2.symm
  obtain rfl : d.address = address := (mem_claimsAbout.mp hd).2.2
  obtain ⟨hleaves, hreaps⟩ := overrides_of_recalls hrecalls
  obtain ⟨m₁, hfirst, hrecords⟩ := h.circulates hc hleaves
  have hd : d ∈ claimsAbout c.toMember.address claims := by
    show d ∈ claimsAbout c.address claims
    rw [habout]
    exact hd
  obtain ⟨m', hsecond, hrecords'⟩ := hrecords.circulates hd hreaps
  exact ⟨m', hfirst.trans hsecond, hrecords'⟩

/-- Circulating claims that override each other have effects as often as one likes. -/
theorem Records.exists_many (h : Records m d.toMember) (count : ℕ) :
    ∃ effects m', Circulates m claims effects m' ∧ Records m' d.toMember ∧
      count ≤ (concerning address effects).length := by
  induction count with
  | zero => exact ⟨[], m, ⟨[], fun e he => absurd he List.not_mem_nil, rfl⟩, h, Nat.zero_le _⟩
  | succ count ih =>
      obtain ⟨effects, m₁, hcirculates, hrecords, hcount⟩ := ih
      obtain ⟨m', hmore, hrecords'⟩ := hrecords.exists_return hc hd hrecalls
      refine ⟨effects ++ [c, d], m', hcirculates.trans hmore, hrecords', ?_⟩
      have hab : c.address = address := (mem_claimsAbout.mp hc).2.2
      rw [concerning_append, concerning_cons_self hab, List.length_append, List.length_cons]
      omega

end

/-! ### When a row comes back -/

/-- **No row comes back exactly if no claim recalls another.** -/
theorem nodup_iff (hready : m.isReady) (hremote : address ≠ m.here) (claims : List Change) :
    (∀ effects m', m.Circulates claims effects m' →
        (course address (m.row? address) effects).Nodup) ↔
      ¬Reopens (m.row? address) (candidates none (claimsAbout address claims))
        (claimsAbout address claims) := by
  constructor
  · rintro hnodup ⟨c, hc, hle, row, hrow | ⟨d, hd, rfl⟩, hrecalls⟩
    · cases hrow
    · obtain ⟨effects, m₁, hcirculates, hrecords⟩ := exists_reaped hc hd hrecalls hready hremote hle
      obtain ⟨m', hmore, -⟩ := hrecords.exists_return hc hd hrecalls
      have hcourse := hnodup _ _ (hcirculates.trans hmore)
      have habout : c.address = address := (mem_claimsAbout.mp hc).2.2
      have habout' : d.address = address := (mem_claimsAbout.mp hd).2.2
      -- the tombstone stands at the end of the first part, and again at the end of the second one
      have hlast : d.toMember ∈ course address (m.row? address) effects := by
        refine List.mem_of_getLast? ?_
        rw [(hcirculates.traced hready hremote).last, ← habout']
        exact hrecords.row
      rw [course_append] at hcourse
      refine (List.disjoint_of_nodup_append hcourse) hlast (List.mem_map_of_mem ?_)
      rw [concerning_cons_self habout, concerning_cons_self habout']
      exact List.mem_cons_of_mem _ List.mem_cons_self
  · intro hnot effects m' hcirculates
    exact (hcirculates.traced hready hremote).nodup hnot

/-- **The standing always rises exactly if no claim recalls a claim or the row of the member.** -/
theorem rises_iff (hready : m.isReady) (hremote : address ≠ m.here) (claims : List Change) :
    (∀ effects m', m.Circulates claims effects m' →
        ((course address (m.row? address) effects).map Member.standing).Pairwise (· < ·)) ↔
      ¬Reopens (m.row? address) (candidates (m.row? address) (claimsAbout address claims))
        (claimsAbout address claims) := by
  constructor
  · intro hrises
    have hclaimed := (nodup_iff hready hremote claims).mp fun effects m' hcirculates =>
      nodup_of_rises (hrises effects m' hcirculates)
    rintro ⟨c, hc, hle, old, hold | hold, hrecalls⟩
    · obtain ⟨-, haddress⟩ := mem_of_row?_eq_some hold
      -- the tombstone that is recalled is the recorded row itself: one departure of the claims steps
      -- below it
      have hrecords : Records m old := ⟨hready, haddress ▸ hremote, haddress ▸ hold⟩
      have hover : Precedence.overrides old c := by
        obtain ⟨hleft, hreaped, hsame⟩ := hrecalls
        have hleft : c.status = .leave := hleft
        refine (Precedence.overrides_iff_of_departed (Or.inl hleft)).mpr ⟨?_, hle old hold⟩
        rw [hleft, hreaped]
        decide
      obtain ⟨m', hcirculates, -⟩ := hrecords.circulates (haddress.symm ▸ hc) hover
      have hcourse := hrises _ _ hcirculates
      rw [course, concerning_cons_self (mem_claimsAbout.mp hc).2.2, hold] at hcourse
      have hlt : old.standing < c.toMember.standing :=
        (List.pairwise_cons.mp hcourse).1 _ List.mem_cons_self
      exact absurd hrecalls.standing_lt (lt_asymm hlt)
    · exact hclaimed ⟨c, hc, hle, old, Or.inr hold, hrecalls⟩
  · intro hnot effects m' hcirculates
    exact (hcirculates.traced hready hremote).rises hnot

/-- **The changes of a row are bounded exactly if no claim recalls another.** -/
theorem bounded_iff (hready : m.isReady) (hremote : address ≠ m.here) (claims : List Change) :
    (∃ bound, ∀ effects m', m.Circulates claims effects m' →
        (concerning address effects).length ≤ bound) ↔
      ¬Reopens (m.row? address) (candidates none (claimsAbout address claims))
        (claimsAbout address claims) := by
  constructor
  · rintro ⟨bound, hbound⟩ ⟨c, hc, hle, row, hrow | ⟨d, hd, rfl⟩, hrecalls⟩
    · cases hrow
    · obtain ⟨first, m₁, hcirculates, hrecords⟩ := exists_reaped hc hd hrecalls hready hremote hle
      obtain ⟨effects, m', hmore, -, hcount⟩ := hrecords.exists_many hc hd hrecalls (bound + 1)
      have hle := hbound _ _ (hcirculates.trans hmore)
      rw [concerning_append, List.length_append] at hle
      omega
  · intro hnot
    refine ⟨(claimsAbout address claims).length, ?_⟩
    intro effects m' hcirculates
    exact (hcirculates.traced hready hremote).length_le hnot

end

end Membership

end GossipRing
