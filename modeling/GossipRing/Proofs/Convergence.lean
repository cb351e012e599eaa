import GossipRing.Proofs.TableRuns
import Mathlib.Data.Set.Basic

/-!
# Order, batching and repetition of claims

Toward: among members that have not departed, a table is decided by which claims arrived. Precedence
is then the order of standings, so every claim moves a row to the maximum of the two, and maxima do
not depend on the order in which they are taken.

* **`Newest`** — the row that stands highest among the one a member has and those claimed of it.
  `foldl_takeClaim_eq_some_iff`: claims taken in one after the other leave it.
* **`Delivery`**, **`deliver`** — batches of claims, each at its own reading of the clock.
* **`Taken`** — what deliveries leave of a table, step by step (`taken_update`, `Taken.append`) and
  over a run (`exists_deliver`).
* **`perm_of_row?_eq`**, **`computeChecksum_congr`** — tables that find the same rows have the same
  rows, up to their order, and the same checksum.
-/

namespace GossipRing.Membership

/-! ## The newest row -/

/-- The rows that a member may come to have: the one it has, and those that are claimed. -/
def candidates (start : Option Member) (claims : List Change) : Set Member :=
  {row | start = some row ∨ ∃ c ∈ claims, c.toMember = row}

/-- The row is a candidate, and none stands above it. -/
structure Newest (start : Option Member) (claims : List Change) (row : Member) : Prop where
  mem : row ∈ candidates start claims
  le : ∀ other ∈ candidates start claims, other.standing ≤ row.standing

section

variable {start : Option Member} {c : Change} {claims rest : List Change} {row : Member}

/-- The candidates depend on which claims there are, not on their order or number. -/
theorem candidates_congr {claims' : List Change} (h : ∀ c, c ∈ claims ↔ c ∈ claims') :
    candidates start claims = candidates start claims' := by
  ext row
  simp only [candidates, Set.mem_ofPred_eq, h]

/-- The newest row depends on which claims there are, not on their order or number. -/
theorem Newest.congr {claims' : List Change} (h : ∀ c, c ∈ claims ↔ c ∈ claims') :
    Newest start claims row ↔ Newest start claims' row := by
  constructor
  · rintro ⟨hmem, hle⟩
    exact ⟨candidates_congr h ▸ hmem, candidates_congr h ▸ hle⟩
  · rintro ⟨hmem, hle⟩
    exact ⟨candidates_congr h ▸ hmem, candidates_congr h ▸ hle⟩

/-- One live claim makes the newest row of itself and the old one. -/
theorem takeClaim_newest (hlive : ∀ row ∈ candidates start [c], ¬row.status.IsDeparted) :
    ∃ row, takeClaim start c = some row ∧ Newest start [c] row := by
  have hclaimed : c.toMember ∈ candidates start [c] := Or.inr ⟨c, List.mem_singleton_self c, rfl⟩
  cases start with
  | none =>
      refine ⟨c.toMember, rfl, hclaimed, ?_⟩
      rintro other (hold | ⟨d, hd, rfl⟩)
      · cases hold
      · exact List.mem_singleton.mp hd ▸ le_refl _
  | some old =>
      have hknown : old ∈ candidates (some old) [c] := Or.inl rfl
      -- among the living, precedence is the order of standings
      have horder := Precedence.overrides_iff_lt (hlive old hknown) (hlive c.toMember hclaimed)
      by_cases hover : Precedence.overrides old c
      · refine ⟨c.toMember, if_pos hover, hclaimed, ?_⟩
        rintro other (hold | ⟨d, hd, rfl⟩)
        · exact Option.some.inj hold ▸ (horder.mp hover).le
        · exact List.mem_singleton.mp hd ▸ le_refl _
      · refine ⟨old, if_neg hover, hknown, ?_⟩
        rintro other (hold | ⟨d, hd, rfl⟩)
        · exact Option.some.inj hold ▸ le_refl _
        · exact List.mem_singleton.mp hd ▸ not_lt.mp (mt horder.mpr hover)

/-- A candidate of the first claim may stand for the start and this claim. -/
theorem candidates_cons_of_mem (h : row ∈ candidates start [c]) :
    candidates (some row) rest ⊆ candidates start (c :: rest) := by
  rintro other (hold | ⟨d, hd, rfl⟩)
  · obtain rfl := Option.some.inj hold
    rcases h with hstart | ⟨d, hd, rfl⟩
    · exact Or.inl hstart
    · exact Or.inr ⟨d, List.mem_singleton.mp hd ▸ List.mem_cons_self, rfl⟩
  · exact Or.inr ⟨d, List.mem_cons_of_mem _ hd, rfl⟩

/-- The newest row of a list is found claim by claim. -/
theorem Newest.cons {last : Member} (h : Newest start [c] row) (hlast : Newest (some row) rest last) :
    Newest start (c :: rest) last := by
  refine ⟨candidates_cons_of_mem h.mem hlast.mem, ?_⟩
  have hrow : row.standing ≤ last.standing := hlast.le row (Or.inl rfl)
  rintro other (hold | ⟨d, hd, rfl⟩)
  · exact (h.le other (Or.inl hold)).trans hrow
  · rcases List.mem_cons.mp hd with rfl | hd
    · exact (h.le _ (Or.inr ⟨d, List.mem_singleton_self d, rfl⟩)).trans hrow
    · exact hlast.le _ (Or.inr ⟨d, hd, rfl⟩)

/-- Live claims, one after the other, make the newest row. -/
theorem newest_of_foldl_takeClaim
    (hlive : ∀ row ∈ candidates start claims, ¬row.status.IsDeparted)
    (h : claims.foldl takeClaim start = some row) : Newest start claims row := by
  induction claims generalizing start with
  | nil =>
      refine ⟨Or.inl h, ?_⟩
      rintro other (hold | ⟨d, hd, -⟩)
      · exact Option.some.inj (hold.symm.trans h) ▸ le_refl _
      · exact absurd hd List.not_mem_nil
  | cons c rest ih =>
      have hfirst : ∀ row ∈ candidates start [c], ¬row.status.IsDeparted := by
        intro row hrow
        refine hlive row (hrow.imp_right ?_)
        rintro ⟨d, hd, hrow⟩
        exact ⟨d, List.mem_singleton.mp hd ▸ List.mem_cons_self, hrow⟩
      obtain ⟨mid, hmid, hnewest⟩ := takeClaim_newest hfirst
      rw [List.foldl_cons, hmid] at h
      exact hnewest.cons (ih (fun row hrow =>
        hlive row (candidates_cons_of_mem hnewest.mem hrow)) h)

/-- A claim leaves a row. -/
theorem takeClaim_ne_none (start : Option Member) (c : Change) : takeClaim start c ≠ none := by
  cases start with
  | none => exact Option.some_ne_none _
  | some old =>
      show (if Precedence.overrides old c then some c.toMember else some old) ≠ none
      split <;> exact Option.some_ne_none _

/-- An address stays without a row only if nothing is claimed of it. -/
theorem foldl_takeClaim_eq_none_iff :
    claims.foldl takeClaim start = none ↔ start = none ∧ claims = [] := by
  induction claims generalizing start with
  | nil => exact (and_iff_left rfl).symm
  | cons c rest ih =>
      rw [List.foldl_cons, ih]
      exact iff_of_false (fun h => takeClaim_ne_none start c h.1)
        fun h => List.cons_ne_nil c rest h.2

/-- **Live claims about one member leave exactly the newest row.** -/
theorem foldl_takeClaim_eq_some_iff {address : String}
    (hlive : ∀ row ∈ candidates start claims, ¬row.status.IsDeparted)
    (habout : ∀ row ∈ candidates start claims, row.address = address) :
    claims.foldl takeClaim start = some row ↔ Newest start claims row := by
  constructor
  · exact newest_of_foldl_takeClaim hlive
  · intro hnewest
    cases hfold : claims.foldl takeClaim start with
    | none =>
        obtain ⟨rfl, rfl⟩ := foldl_takeClaim_eq_none_iff.mp hfold
        rcases hnewest.mem with hold | ⟨c, hc, -⟩
        · cases hold
        · exact absurd hc List.not_mem_nil
    | some found =>
        have hfound := newest_of_foldl_takeClaim hlive hfold
        have hstanding := le_antisymm (hnewest.le found hfound.mem) (hfound.le row hnewest.mem)
        have haddress := (habout found hfound.mem).trans (habout row hnewest.mem).symm
        rw [Member.eq_of_standing_eq haddress hstanding]

end

/-! ## Tables with the same rows -/

/-- Tables with the same rows differ in their order at most. -/
theorem perm_of_mem_rows_iff {m m' : Membership} (hm : m.Distinct) (hm' : m'.Distinct)
    (h : ∀ row, row ∈ m.rows ↔ row ∈ m'.rows) : m.rows.Perm m'.rows := by
  have hrows : m.rows.Nodup := List.Nodup.of_map Member.address hm
  have hrows' : m'.rows.Nodup := List.Nodup.of_map Member.address hm'
  exact (List.perm_ext_iff_of_nodup hrows hrows').mpr h

/-- Tables that find the same rows have the same rows, up to their order. -/
theorem perm_of_row?_eq {m m' : Membership} (hm : m.Distinct) (hm' : m'.Distinct)
    (h : ∀ address, m.row? address = m'.row? address) : m.rows.Perm m'.rows := by
  refine perm_of_mem_rows_iff hm hm' fun row => ?_
  have hfound : m.row? row.address = some row ↔ row ∈ m.rows :=
    (row?_eq_some_iff hm).trans (and_iff_left rfl)
  have hfound' : m'.row? row.address = some row ↔ row ∈ m'.rows :=
    (row?_eq_some_iff hm').trans (and_iff_left rfl)
  rw [← hfound, ← hfound', h]

theorem pairwise_mergeSort (texts : List String) :
    (texts.mergeSort fun a b => decide (a ≤ b)).Pairwise fun a b => decide (a ≤ b) = true := by
  refine List.pairwise_mergeSort ?_ ?_ texts
  · intro a b c hab hbc
    exact decide_eq_true (String.le_trans (of_decide_eq_true hab) (of_decide_eq_true hbc))
  · intro a b
    rw [Bool.or_eq_true, decide_eq_true_eq, decide_eq_true_eq]
    exact String.le_total a b

/-- Sorting forgets the order. -/
theorem mergeSort_eq_of_perm {first second : List String} (h : first.Perm second) :
    (first.mergeSort fun a b => decide (a ≤ b)) = second.mergeSort fun a b => decide (a ≤ b) := by
  refine List.Perm.eq_of_pairwise ?_ (pairwise_mergeSort first) (pairwise_mergeSort second) ?_
  · intro a b _ _ hab hba
    exact String.le_antisymm (of_decide_eq_true hab) (of_decide_eq_true hba)
  · exact ((List.mergeSort_perm first _).trans h).trans (List.mergeSort_perm second _).symm

/-- **The checksum does not depend on where rows stand.** -/
theorem computeChecksum_congr {m m' : Membership} (hhash : m.hash = m'.hash)
    (hrows : m.rows.Perm m'.rows) : m.computeChecksum = m'.computeChecksum := by
  rw [computeChecksum, computeChecksum, checksumText, checksumText, hhash,
    mergeSort_eq_of_perm (hrows.map Member.checksumText)]

/-! ## Deliveries -/

/-- A batch of claims that arrives at some reading of the clock. -/
structure Delivery where
  now : Clock
  claims : List Change
  localAlive : Bool
  deriving DecidableEq, Repr

/-- Take in deliveries one after the other. The result lists the claims that took effect. -/
def deliver (m : Membership) : List Delivery → Attempt Membership (List Change)
  | [] => .done m []
  | d :: rest =>
    (m.update d.now d.claims d.localAlive).andThen fun m effects =>
      (deliver m rest).map fun more => effects ++ more

/-- All claims of the deliveries. -/
def delivered (deliveries : List Delivery) : List Change := deliveries.flatMap Delivery.claims

/-- The second table is the first one after these claims about other members, with these
    effects. -/
structure Taken (m : Membership) (claims : List Change) (m' : Membership)
    (effects : List Change) : Prop where
  gate : m'.gate = m.gate
  here : m'.here = m.here
  hash : m'.hash = m.hash
  localRow : m'.localRow? = m.localRow?
  distinct : m.Distinct → m'.Distinct
  row : ∀ address, address ≠ m.here →
    m'.row? address = (claimsAbout address claims).foldl takeClaim (m.row? address)
  renewed : m' = m ∧ effects = [] ∨ m'.checksum = some m'.computeChecksum ∧ effects ≠ []

section

variable {now : Clock} {m m₁ m₂ m' : Membership} {claims claims' effects effects' : List Change}

theorem Taken.refl (m : Membership) : Taken m [] m [] where
  gate := rfl
  here := rfl
  hash := rfl
  localRow := rfl
  distinct := id
  row _ _ := rfl
  renewed := Or.inl ⟨rfl, rfl⟩

/-- Claims taken in one after the other are taken in together. -/
theorem Taken.append (h : Taken m claims m₁ effects) (h' : Taken m₁ claims' m₂ effects') :
    Taken m (claims ++ claims') m₂ (effects ++ effects') where
  gate := h'.gate.trans h.gate
  here := h'.here.trans h.here
  hash := h'.hash.trans h.hash
  localRow := h'.localRow.trans h.localRow
  distinct hm := h'.distinct (h.distinct hm)
  -- the rows fold over the claims, so the second list starts from what the first has left
  row address hremote := by
    rw [h'.row address (h.here ▸ hremote), h.row address hremote, claimsAbout, claimsAbout,
      claimsAbout, List.filter_append, List.foldl_append]
  renewed := by
    rcases h'.renewed with ⟨rfl, rfl⟩ | ⟨hrenewed, hne⟩
    · rw [List.append_nil]
      exact h.renewed
    · exact Or.inr ⟨hrenewed, List.append_ne_nil_of_right_ne_nil _ hne⟩

/-- **A table that is ready takes in every batch of claims about other members.** -/
theorem taken_update (now : Clock) (localAlive : Bool) (hready : m.isReady)
    (hremote : ∀ c ∈ claims, c.address ≠ m.here) :
    ∃ m' effects, m.update now claims localAlive = .done m' effects ∧ Taken m claims m' effects := by
  obtain ⟨m₁, effects, happlied⟩ := exists_applied_of_remote now hremote
  have halike : Alike (m₁.conclude effects) m₁ := alike_conclude m₁ effects
  refine ⟨_, _, update_of_applied hready localAlive happlied, ?_⟩
  constructor
  · rw [gate_conclude, happlied.gate_eq]
  · rw [halike.here, happlied.here_eq]
  · rw [halike.hash, happlied.hash_eq]
  · rw [halike.localRow?, happlied.localRow?_eq hremote]
  · intro hdistinct
    rw [Distinct, halike.rows, happlied.eq_putAll]
    exact hdistinct.putAll effects
  · intro address haddress
    rw [halike.row?, happlied.row?_eq haddress]
  · cases effects with
    | nil => exact Or.inl ⟨happlied.eq_putAll, rfl⟩
    | cons e rest => exact Or.inr ⟨rfl, List.cons_ne_nil e rest⟩

/-- **A table that is ready takes in all deliveries of claims about other members.** -/
theorem exists_deliver {deliveries : List Delivery} (hready : m.isReady)
    (hremote : ∀ c ∈ delivered deliveries, c.address ≠ m.here) :
    ∃ m' effects, m.deliver deliveries = .done m' effects ∧
      Taken m (delivered deliveries) m' effects := by
  induction deliveries generalizing m with
  | nil => exact ⟨m, [], rfl, .refl m⟩
  | cons d rest ih =>
      obtain ⟨m₁, first, hupdate, htaken⟩ := taken_update d.now d.localAlive hready
        fun c hc => hremote c (List.mem_append_left _ hc)
      have hready₁ : m₁.isReady := by
        rw [isReady, htaken.gate]
        exact hready
      obtain ⟨m', more, hrest, htaken'⟩ := ih hready₁ fun c hc => by
        rw [htaken.here]
        exact hremote c (List.mem_append_right _ hc)
      refine ⟨m', first ++ more, ?_, htaken.append htaken'⟩
      rw [deliver, hupdate, Attempt.andThen_done, hrest, Attempt.map_done]

/-- Deliveries of claims that are all ignored change nothing. -/
theorem deliver_of_ignores {deliveries : List Delivery} (hready : m.isReady)
    (hignores : ∀ c ∈ delivered deliveries, m.Ignores c) :
    m.deliver deliveries = .done m [] := by
  induction deliveries with
  | nil => rfl
  | cons d rest ih =>
      have happlied : Applied d.now m d.claims m [] :=
        applied_of_ignores fun c hc => hignores c (List.mem_append_left _ hc)
      rw [deliver, update_of_applied hready d.localAlive happlied, Attempt.andThen_done]
      exact congrArg _ (ih fun c hc => hignores c (List.mem_append_right _ hc))

/-! ## Live members -/

/-- No other member is recorded as departed. -/
def LiveRemotes (m : Membership) : Prop :=
  ∀ row ∈ m.rows, row.address ≠ m.here → ¬row.status.IsDeparted

/-- A claim about another member, which has not departed. -/
def LiveRemote (m : Membership) (c : Change) : Prop :=
  c.address ≠ m.here ∧ ¬c.status.IsDeparted

instance (m : Membership) : Decidable m.LiveRemotes :=
  inferInstanceAs (Decidable (∀ row ∈ m.rows, _))

instance (m : Membership) (c : Change) : Decidable (m.LiveRemote c) :=
  inferInstanceAs (Decidable (_ ∧ _))

/-- All that may become of a remote row is live. -/
theorem live_of_mem_candidates {address : String} {row : Member} (hrows : m.LiveRemotes)
    (hclaims : ∀ c ∈ claims, m.LiveRemote c) (hremote : address ≠ m.here)
    (h : row ∈ candidates (m.row? address) (claimsAbout address claims)) :
    ¬row.status.IsDeparted ∧ row.address = address := by
  rcases h with hold | ⟨c, hc, rfl⟩
  · obtain ⟨hmem, haddress⟩ := mem_of_row?_eq_some hold
    exact ⟨hrows row hmem (haddress.symm ▸ hremote), haddress⟩
  · obtain ⟨hmem, -, habout⟩ := mem_claimsAbout.mp hc
    exact ⟨(hclaims c hmem).2, habout⟩

namespace Taken

variable (h : Taken m claims m' effects) (hrows : m.LiveRemotes)
  (hclaims : ∀ c ∈ claims, m.LiveRemote c)

include h hrows hclaims

/-- **Another member is left with the newest of its row and the claims about it.** -/
theorem row?_eq_some_iff {address : String} (hremote : address ≠ m.here) {row : Member} :
    m'.row? address = some row ↔ Newest (m.row? address) (claimsAbout address claims) row := by
  rw [h.row address hremote]
  exact foldl_takeClaim_eq_some_iff
    (fun row hrow => (live_of_mem_candidates hrows hclaims hremote hrow).1)
    (fun row hrow => (live_of_mem_candidates hrows hclaims hremote hrow).2)

/-- **A claim that was taken in has nothing more to say.** -/
theorem ignores {c : Change} (hc : c ∈ claims) : m'.Ignores c := by
  by_cases hnamed : c.isMalformed
  · exact Or.inl hnamed
  · have hremote : c.address ≠ m.here := (hclaims c hc).1
    refine Or.inr ⟨fun haccepts => ?_, not_refutes_of_remote (h.here.symm ▸ hremote)⟩
    have habout : c ∈ claimsAbout c.address claims := mem_claimsAbout.mpr ⟨hc, hnamed, rfl⟩
    cases hrow : m'.row? c.address with
    | none =>
        rw [h.row c.address hremote] at hrow
        rw [(foldl_takeClaim_eq_none_iff.mp hrow).2] at habout
        exact absurd habout List.not_mem_nil
    | some row =>
        have hnewest := (h.row?_eq_some_iff hrows hclaims hremote).mp hrow
        have hlive := (live_of_mem_candidates hrows hclaims hremote hnewest.mem).1
        have hover := ((accepts_iff_of_some hrow).mp haccepts).1
        rw [Precedence.overrides_iff_lt hlive (hclaims c hc).2] at hover
        exact absurd (hnewest.le _ (Or.inr ⟨c, habout, rfl⟩)) (not_le_of_gt hover)

end Taken

variable {deliveries others : List Delivery}

/-- Whatever a completed delivery has done is the taking in of its claims. -/
theorem taken_deliver (hready : m.isReady) (hremote : ∀ c ∈ delivered deliveries, c.address ≠ m.here)
    (h : m.deliver deliveries = .done m' effects) :
    Taken m (delivered deliveries) m' effects := by
  obtain ⟨m₁, effects₁, hdone, htaken⟩ := exists_deliver hready hremote
  obtain ⟨rfl, rfl⟩ := Attempt.done.inj (h.symm.trans hdone)
  exact htaken

/-- **The claims decide the rows and the checksum**, whatever their order, number and batches. -/
theorem deliver_same_table (hready : m.isReady) (hdistinct : m.Distinct) (hrows : m.LiveRemotes)
    (hclaims : ∀ c ∈ delivered deliveries, m.LiveRemote c)
    (hsame : ∀ c, c ∈ delivered others ↔ c ∈ delivered deliveries)
    (h : m.deliver deliveries = .done m₁ effects) (h' : m.deliver others = .done m₂ effects') :
    (∀ address, m₂.row? address = m₁.row? address) ∧ m₂.rows.Perm m₁.rows ∧
      m₂.checksum = m₁.checksum := by
  have hclaims' : ∀ c ∈ delivered others, m.LiveRemote c := fun c hc => hclaims c ((hsame c).mp hc)
  have htaken := taken_deliver hready (fun c hc => (hclaims c hc).1) h
  have htaken' := taken_deliver hready (fun c hc => (hclaims' c hc).1) h'
  have hrow : ∀ address, m₂.row? address = m₁.row? address := by
    intro address
    by_cases hlocal : address = m.here
    · have hleft := htaken.localRow
      have hright := htaken'.localRow
      rw [localRow?, htaken.here] at hleft
      rw [localRow?, htaken'.here] at hright
      rw [hlocal, hleft, hright]
    · refine Option.ext fun row => ?_
      rw [htaken.row?_eq_some_iff hrows hclaims hlocal,
        htaken'.row?_eq_some_iff hrows hclaims' hlocal]
      apply Newest.congr
      intro c
      rw [mem_claimsAbout, mem_claimsAbout, hsame]
  have hperm := perm_of_row?_eq (htaken'.distinct hdistinct) (htaken.distinct hdistinct) hrow
  refine ⟨hrow, hperm, ?_⟩
  -- where nothing took effect one way, nothing does the other way
  rcases htaken.renewed with ⟨rfl, rfl⟩ | ⟨hrenewed, -⟩
  · have hagain := deliver_of_ignores hready fun c hc =>
      htaken.ignores hrows hclaims ((hsame c).mp hc)
    rw [(Attempt.done.inj (h'.symm.trans hagain)).1]
  · rcases htaken'.renewed with ⟨rfl, rfl⟩ | ⟨hrenewed', -⟩
    · have hagain := deliver_of_ignores hready fun c hc =>
        htaken'.ignores hrows hclaims' ((hsame c).mpr hc)
      rw [(Attempt.done.inj (h.symm.trans hagain)).1]
    · rw [hrenewed, hrenewed', computeChecksum_congr (htaken'.hash.trans htaken.hash.symm) hperm]

/-- **Gossip about live members converges.**

    Take a table that is ready, with one row for each address as runs leave it, and no departed
    members but perhaps this one. Claims about others that have not departed can be delivered in any
    order, in any batches and any number of times. All deliveries are taken in, and the row of every
    other member is then the highest, by incarnation and then by status, of its old row and the
    claims about it. Other deliveries of the same claims leave the same rows and the same checksum,
    and whatever of them is delivered once more has no effect. -/
theorem deliver_converges (hready : m.isReady) (hdistinct : m.Distinct) (hrows : m.LiveRemotes)
    (hclaims : ∀ c ∈ claims, m.LiveRemote c)
    (hdelivered : ∀ c, c ∈ delivered deliveries ↔ c ∈ claims) :
    ∃ m' effects, m.deliver deliveries = .done m' effects ∧
      (∀ address, address ≠ m.here →
        (∀ row, m'.row? address = some row ↔
          Newest (m.row? address) (claimsAbout address claims) row) ∧
        (m'.row? address = none ↔
          m.row? address = none ∧ claimsAbout address claims = [])) ∧
      m'.localRow? = m.localRow? ∧
      (∀ others, (∀ c, c ∈ delivered others ↔ c ∈ claims) →
        ∃ m'' effects', m.deliver others = .done m'' effects' ∧
          (∀ address, m''.row? address = m'.row? address) ∧ m''.rows.Perm m'.rows ∧
          m''.checksum = m'.checksum) ∧
      (∀ again, (∀ c ∈ delivered again, c ∈ claims) → m'.deliver again = .done m' []) := by
  have hlive : ∀ c ∈ delivered deliveries, m.LiveRemote c :=
    fun c hc => hclaims c ((hdelivered c).mp hc)
  obtain ⟨m', effects, hdone, htaken⟩ := exists_deliver hready fun c hc => (hlive c hc).1
  refine ⟨m', effects, hdone, ?_, htaken.localRow, ?_, ?_⟩
  · intro address hremote
    have habout : ∀ c, c ∈ claimsAbout address (delivered deliveries) ↔
        c ∈ claimsAbout address claims := by
      intro c
      rw [mem_claimsAbout, mem_claimsAbout, hdelivered]
    have hnewest : ∀ row, m'.row? address = some row ↔
        Newest (m.row? address) (claimsAbout address claims) row := fun row =>
      (htaken.row?_eq_some_iff hrows hlive hremote).trans (Newest.congr habout)
    refine ⟨hnewest, ?_⟩
    rw [htaken.row address hremote, foldl_takeClaim_eq_none_iff, List.eq_nil_iff_forall_not_mem,
      List.eq_nil_iff_forall_not_mem]
    simp only [habout]
  · intro others hothers
    obtain ⟨m'', effects', hdone', -⟩ := exists_deliver hready fun c hc =>
      (hclaims c ((hothers c).mp hc)).1
    refine ⟨m'', effects', hdone', deliver_same_table hready hdistinct hrows hlive ?_ hdone hdone'⟩
    intro c
    rw [hothers, hdelivered]
  · intro again hagain
    have hready' : m'.isReady := by
      rw [isReady, htaken.gate]
      exact hready
    exact deliver_of_ignores hready' fun c hc =>
      htaken.ignores hrows hlive ((hdelivered c).mpr (hagain c hc))

end

/-- The node `a` suspects `b` and hears that `b` failed and then that it is back. In two batches, or
    in one that is out of order and repeats itself, this leaves `b` alive. Heard once more it has no
    effect. -/
theorem deliver_converges_in_two_batches :
    ∃ m m' m'' : Membership, ∃ effects effects',
      m.rows = [⟨"b", .suspect, 3⟩] ∧
      m.deliver [⟨7, [⟨"b", .faulty, 3, "d", 1, 6⟩], false⟩,
        ⟨8, [⟨"b", .alive, 4, "b", 4, 7⟩], true⟩] = .done m' effects ∧
      m.deliver [⟨9, [⟨"b", .alive, 4, "b", 4, 7⟩, ⟨"b", .faulty, 3, "d", 1, 6⟩,
        ⟨"b", .alive, 4, "b", 4, 7⟩], false⟩] = .done m'' effects' ∧
      m'.row? "b" = some ⟨"b", .alive, 4⟩ ∧ m''.rows.Perm m'.rows ∧ m''.checksum = m'.checksum ∧
      m'.deliver [⟨9, [⟨"b", .faulty, 3, "d", 1, 6⟩], false⟩] = .done m' [] := by
  have hdistinct : (Membership.mk "a" [⟨"b", .suspect, 3⟩] none .opened hash32 [] .none).Distinct :=
    List.nodup_singleton "b"
  have hdelivered : ∀ c : Change, c ∈ delivered [⟨7, [⟨"b", .faulty, 3, "d", 1, 6⟩], false⟩,
      ⟨8, [⟨"b", .alive, 4, "b", 4, 7⟩], true⟩] ↔
      c ∈ [⟨"b", .faulty, 3, "d", 1, 6⟩, ⟨"b", .alive, 4, "b", 4, 7⟩] := fun c => Iff.rfl
  obtain ⟨m', effects, hdone, hrow, -, hothers, hagain⟩ :=
    deliver_converges (by decide) hdistinct (by decide) (by decide) hdelivered
  obtain ⟨m'', effects', hdone', -, hperm, hchecksum⟩ :=
    hothers [⟨9, [⟨"b", .alive, 4, "b", 4, 7⟩, ⟨"b", .faulty, 3, "d", 1, 6⟩,
      ⟨"b", .alive, 4, "b", 4, 7⟩], false⟩] fun c => by
        simp only [delivered, List.flatMap_cons, List.flatMap_nil, List.append_nil, List.mem_cons,
          List.not_mem_nil, or_false]
        tauto
  refine ⟨_, m', m'', effects, effects', rfl, hdone, hdone', ?_, hperm, hchecksum,
    hagain _ (by decide)⟩
  refine ((hrow "b" (by decide)).1 _).mpr ⟨Or.inr ⟨⟨"b", .alive, 4, "b", 4, 7⟩, by decide, rfl⟩, ?_⟩
  have hclaimed : ∀ c ∈ claimsAbout "b" [⟨"b", .faulty, 3, "d", 1, 6⟩, ⟨"b", .alive, 4, "b", 4, 7⟩],
      c.toMember.standing ≤ (Member.mk "b" .alive 4).standing := by decide
  rintro other (hold | ⟨c, hc, rfl⟩)
  · obtain rfl := Option.some.inj hold
    decide
  · exact hclaimed c hc

end GossipRing.Membership
