import GossipRing.Proofs.TableRuns

/-!
# What snapshots are reconciled to

Toward: what a node that joins takes over. Snapshots that agree are not looked into, the first one is
taken as it is. From others one claim is kept for each address.

* **`Snapshot.Agreed`** — the snapshots carry one known checksum. `reconcile_of_agreed` and
  `reconcile_of_not_agreed`: this alone decides what becomes of them.
* **`Snapshot.Leads`** — one claim is kept for each address, at the highest incarnation. Every claim
  that is looked at keeps this (`Leads.keepNewer`), and so it is with the newest ones (`leads_newest`).
* **`Membership.row?_adopt`** — another member has the row of the last claim that is adopted about it.
-/

open GossipRing.Membership (claimsAbout mem_claimsAbout)

namespace GossipRing

/-- The claim is at the highest incarnation of these. -/
structure Highest (claims : List Change) (c : Change) : Prop where
  mem : c ∈ claims
  le : ∀ d ∈ claims, d.incarnation ≤ c.incarnation

namespace Snapshot

/-- The claims about other members. -/
def others (here : String) (claims : List Change) : List Change :=
  claims.filter fun c => c.address ≠ here && !c.isMalformed

/-- All snapshots carry one known checksum. -/
def Agreed (snapshots : List Snapshot) : Prop :=
  ∃ checksum : UInt32, ∀ s ∈ snapshots, s.checksum = some checksum

section

variable {here address : String} {c k : Change} {claims kept rest : List Change}
  {first : Snapshot} {snapshots more : List Snapshot} {stash : List Change}

theorem Agreed.perm (h : Agreed snapshots) (hperm : more.Perm snapshots) : Agreed more := by
  obtain ⟨checksum, hall⟩ := h
  exact ⟨checksum, fun s hs => hall s (hperm.mem_iff.mp hs)⟩

/-- The comparison with the first snapshot finds exactly the snapshots that agree. -/
theorem agree_iff : agree first (first :: more) ↔ Agreed (first :: more) := by
  rw [agree, Bool.and_eq_true, List.all_eq_true]
  constructor
  · rintro ⟨hknown, hall⟩
    obtain ⟨checksum, hchecksum⟩ := Option.isSome_iff_exists.mp hknown
    exact ⟨checksum, fun s hs => (of_decide_eq_true (hall s hs)).trans hchecksum⟩
  · rintro ⟨checksum, hall⟩
    have hfirst := hall first List.mem_cons_self
    refine ⟨Option.isSome_iff_exists.mpr ⟨checksum, hfirst⟩, fun s hs => ?_⟩
    exact decide_eq_true ((hall s hs).trans hfirst.symm)

/-- Snapshots that agree stand for one of them. -/
theorem reconcile_of_agreed (h : Agreed snapshots) (here : String) (stash : List Change) :
    reconcile here snapshots stash = ⟨(snapshots.head?.map Snapshot.members).getD [], false⟩ := by
  cases snapshots with
  | nil => rfl
  | cons first rest =>
      rw [reconcile, if_pos (agree_iff.mpr h)]
      rfl

/-- Others are merged, and so is what was held back. -/
theorem reconcile_of_not_agreed (h : ¬Agreed snapshots) (here : String) (stash : List Change) :
    reconcile here snapshots stash =
      ⟨newest here (snapshots.flatMap Snapshot.members ++ stash), true⟩ := by
  cases snapshots with
  | nil => exact absurd ⟨0, fun s hs => absurd hs List.not_mem_nil⟩ h
  | cons first rest => rw [reconcile, if_neg (mt agree_iff.mp h)]

/-! ## The newest claims -/

theorem entry?_eq_none_iff : entry? address kept = none ↔ ∀ k ∈ kept, k.address ≠ address := by
  simp [ entry?]

theorem mem_of_entry?_eq_some (h : entry? address kept = some k) :
    k ∈ kept ∧ k.address = address := by
  refine ⟨List.mem_of_find?_eq_some h, ?_⟩
  simpa using List.find?_some h

/-- A claim that is no newer than what is kept about its member changes nothing. -/
theorem keepNewer_of_known (hdistinct : (kept.map Change.address).Nodup)
    (h : ∃ k ∈ kept, k.address = c.address ∧ c.incarnation ≤ k.incarnation) :
    keepNewer kept c = kept := by
  obtain ⟨k, hk, habout, hle⟩ := h
  have hentry : entry? c.address kept = some k := by
    cases hfound : entry? c.address kept with
    | none => exact absurd habout (entry?_eq_none_iff.mp hfound k hk)
    | some prior =>
        obtain ⟨hprior, hsame⟩ := mem_of_entry?_eq_some hfound
        exact congrArg some (List.inj_on_of_nodup_map hdistinct hprior hk (hsame.trans habout.symm))
  rw [keepNewer, hentry]
  exact if_neg (UInt64.not_lt.mpr hle)

/-- A claim that is newer than all that is kept about its member goes behind the others. -/
theorem keepNewer_of_newer
    (h : ∀ k ∈ kept, k.address = c.address → k.incarnation < c.incarnation) :
    keepNewer kept c = kept.filter (fun k => k.address ≠ c.address) ++ [c] := by
  rw [keepNewer]
  cases hentry : entry? c.address kept with
  | none =>
      have hnobody := entry?_eq_none_iff.mp hentry
      rw [List.filter_eq_self.mpr fun k hk => decide_eq_true (hnobody k hk)]
  | some prior =>
      obtain ⟨hprior, habout⟩ := mem_of_entry?_eq_some hentry
      exact if_pos (h prior hprior habout)

/-- Of these claims one is kept for each address, and none is at a higher incarnation. -/
structure Leads (claims kept : List Change) : Prop where
  distinct : (kept.map Change.address).Nodup
  mem : ∀ k ∈ kept, k ∈ claims
  covers : ∀ c ∈ claims, ∃ k ∈ kept, k.address = c.address ∧ c.incarnation ≤ k.incarnation

namespace Leads

/-- A claim takes the place of what is kept about its address, if that is not newer. -/
theorem replace (h : Leads claims kept)
    (hnewer : ∀ k ∈ kept, k.address = c.address → k.incarnation ≤ c.incarnation) :
    Leads (claims ++ [c]) (kept.filter (fun k => k.address ≠ c.address) ++ [c]) where
  distinct := nodup_map_replaced h.distinct c
  mem k hk := by
    rcases List.mem_append.mp hk with hk | hk
    · exact List.mem_append_left _ (h.mem k (List.mem_filter.mp hk).1)
    · exact List.mem_append_right _ hk
  covers d hd := by
    have hlast : c ∈ kept.filter (fun k => k.address ≠ c.address) ++ [c] :=
      List.mem_append_right _ (List.mem_singleton_self c)
    rcases List.mem_append.mp hd with hd | hd
    · obtain ⟨k, hk, habout, hle⟩ := h.covers d hd
      by_cases hsame : k.address = c.address
      · exact ⟨c, hlast, hsame.symm.trans habout, UInt64.le_trans hle (hnewer k hk hsame)⟩
      · have hother : k ∈ kept.filter fun k => k.address ≠ c.address :=
          List.mem_filter.mpr ⟨hk, decide_eq_true hsame⟩
        exact ⟨k, List.mem_append_left _ hother, habout, hle⟩
    · obtain rfl := List.mem_singleton.mp hd
      exact ⟨d, hlast, rfl, UInt64.le_refl _⟩

/-- **Every claim that is looked at is kept, or one that is at least as new.** -/
theorem keepNewer (h : Leads claims kept) (c : Change) :
    Leads (claims ++ [c]) (keepNewer kept c) := by
  by_cases hknown : ∃ k ∈ kept, k.address = c.address ∧ c.incarnation ≤ k.incarnation
  · rw [keepNewer_of_known h.distinct hknown]
    refine ⟨h.distinct, fun k hk => List.mem_append_left _ (h.mem k hk), ?_⟩
    intro d hd
    rcases List.mem_append.mp hd with hd | hd
    · exact h.covers d hd
    · obtain rfl := List.mem_singleton.mp hd
      exact hknown
  · have hnewer : ∀ k ∈ kept, k.address = c.address → k.incarnation < c.incarnation :=
      fun k hk habout => UInt64.not_le.mp fun hle => hknown ⟨k, hk, habout, hle⟩
    rw [keepNewer_of_newer hnewer]
    exact h.replace fun k hk habout => UInt64.le_of_lt (hnewer k hk habout)

/-- Keeping the newer of all further claims leads all claims together. -/
theorem foldl_keepNewer (h : Leads claims kept) (rest : List Change) :
    Leads (claims ++ rest) (rest.foldl Snapshot.keepNewer kept) := by
  induction rest generalizing claims kept with
  | nil =>
      rw [List.append_nil]
      exact h
  | cons c rest ih =>
      have hrest := ih (h.keepNewer c)
      rw [List.append_assoc] at hrest
      exact hrest

end Leads

theorem others_append (here : String) (claims rest : List Change) :
    others here (claims ++ rest) = others here claims ++ others here rest :=
  List.filter_append claims rest

theorem mem_others :
    c ∈ others here claims ↔ c ∈ claims ∧ c.address ≠ here ∧ ¬c.isMalformed := by
  simp [others]

/-- **So it is with the newest claims about the others.** -/
theorem leads_newest (here : String) (claims : List Change) :
    Leads (others here claims) (newest here claims) := by
  have hnothing : Leads [] [] :=
    ⟨List.nodup_nil, fun _ hk => hk, fun _ hc => absurd hc List.not_mem_nil⟩
  exact hnothing.foldl_keepNewer _

theorem mem_of_mem_newest (h : c ∈ newest here claims) : c ∈ claims :=
  (mem_others.mp ((leads_newest here claims).mem c h)).1

/-- Reconciliation makes no claims of its own. -/
theorem mem_of_mem_reconcile (h : c ∈ (reconcile here snapshots stash).changes) :
    (∃ s ∈ snapshots, c ∈ s.members) ∨ c ∈ stash := by
  by_cases hagreed : Agreed snapshots
  · rw [reconcile_of_agreed hagreed] at h
    cases snapshots with
    | nil => exact absurd h List.not_mem_nil
    | cons first rest => exact Or.inl ⟨first, List.mem_cons_self, h⟩
  · rw [reconcile_of_not_agreed hagreed] at h
    exact (List.mem_append.mp (mem_of_mem_newest h)).imp_left List.mem_flatMap.mp

/-- What is kept about another member is at the highest incarnation that is claimed of it. -/
theorem highest_of_mem_newest (hremote : address ≠ here)
    (hk : k ∈ claimsAbout address (newest here claims)) : Highest (claimsAbout address claims) k := by
  obtain ⟨hkept, hnamed, rfl⟩ := mem_claimsAbout.mp hk
  have hleads := leads_newest here claims
  refine ⟨mem_claimsAbout.mpr ⟨mem_of_mem_newest hkept, hnamed, rfl⟩, fun d hd => ?_⟩
  obtain ⟨hmem, hdnamed, habout⟩ := mem_claimsAbout.mp hd
  obtain ⟨k', hk', hsame, hle⟩ :=
    hleads.covers d (mem_others.mpr ⟨hmem, habout.symm ▸ hremote, hdnamed⟩)
  obtain rfl := List.inj_on_of_nodup_map hleads.distinct hk' hkept (hsame.trans habout)
  exact hle

/-- Something is kept about every other member that something is claimed of. -/
theorem exists_mem_newest (hremote : address ≠ here) (hc : c ∈ claimsAbout address claims) :
    ∃ k, k ∈ claimsAbout address (newest here claims) := by
  obtain ⟨hmem, hnamed, rfl⟩ := mem_claimsAbout.mp hc
  have hleads := leads_newest here claims
  obtain ⟨k, hk, habout, -⟩ := hleads.covers c (mem_others.mpr ⟨hmem, hremote, hnamed⟩)
  have hknamed := (mem_others.mp (hleads.mem k hk)).2.2
  exact ⟨k, mem_claimsAbout.mpr ⟨hk, hknamed, habout⟩⟩

end

end Snapshot

namespace Membership

section

variable {m : Membership} {address : String} {c : Change} {claims rest : List Change}
  {snapshots : List Snapshot}

/-! ## Rows that are adopted -/

/-- The row that the last of these claims asks for. -/
def lastRow? (address : String) (claims : List Change) : Option Member :=
  (claimsAbout address claims).getLast?.map Change.toMember

/-- The last row of an address is that of the second list, if it has one. -/
theorem lastRow?_append (first rest : List Change) : lastRow? address (first ++ rest) =
    (lastRow? address rest).or (lastRow? address first) := by
  rw [lastRow?, lastRow?, lastRow?, claimsAbout, claimsAbout, claimsAbout, List.filter_append,
    List.getLast?_append]
  cases (rest.filter _).getLast? <;> rfl

/-- A single claim that names somebody tells the last row of its address. -/
theorem lastRow?_singleton_self (hnamed : ¬c.isMalformed) :
    lastRow? c.address [c] = some c.toMember := by
  rw [lastRow?, claimsAbout_cons_self hnamed]
  rfl

/-- A single claim tells nothing about another address, and nothing at all if it names nobody. -/
theorem lastRow?_singleton_of_not (h : c.isMalformed ∨ c.address ≠ address) :
    lastRow? address [c] = none := by
  rcases h with hmalformed | hother
  · rw [lastRow?, claimsAbout_cons_of_malformed hmalformed]
    rfl
  · rw [lastRow?, claimsAbout_cons_of_ne hother]
    rfl

/-- A claim that is adopted gives another member its row. -/
theorem row?_adoptOne (hremote : address ≠ m.here) :
    (m.adoptOne c).1.row? address = (lastRow? address [c]).or (m.row? address) := by
  rw [adoptOne]
  -- an entry is skipped, or it is known already, or it is written
  split
  · next hskip =>
    rw [lastRow?_singleton_of_not, Option.none_or]
    exact hskip.symm.imp_right fun hlocal habout => hremote (habout.symm.trans hlocal)
  · next hskip =>
    have hnamed : ¬c.isMalformed := fun h => hskip (Or.inr h)
    by_cases habout : c.address = address
    · subst habout
      rw [lastRow?_singleton_self hnamed, Option.some_or]
      split
      · next hknown => exact hknown
      · rw [row?_put, if_pos (show c.address = c.toMember.address from rfl)]
    · rw [lastRow?_singleton_of_not (Or.inr habout), Option.none_or]
      split
      · rfl
      · rw [row?_put]
        exact if_neg (Ne.symm habout)

/-- Of several claims the last one does. -/
theorem row?_adoptAll (hremote : address ≠ m.here) :
    (m.adoptAll claims).1.row? address = (lastRow? address claims).or (m.row? address) := by
  induction claims generalizing m with
  | nil => rfl
  | cons c rest ih =>
      have hhere : (m.adoptOne c).1.here = m.here := by
        rw [adoptOne_eq, here_putAll]
      show ((m.adoptOne c).1.adoptAll rest).1.row? address = _
      rw [ih (hhere ▸ hremote), row?_adoptOne hremote, ← Option.or_assoc, ← lastRow?_append]
      rfl

/-- **Another member has the row of the last claim that is adopted about it**, or the one it had. -/
theorem row?_adopt (hremote : address ≠ m.here) : (m.adopt snapshots).1.row? address =
    (lastRow? address (Snapshot.reconcile m.here snapshots m.gate.stash).changes).or
      (m.row? address) := by
  have hreleased := alike_releaseStash m
    (Snapshot.reconcile m.here snapshots m.gate.stash).consumedStash
  show ((m.releaseStash _).adoptAll _).1.row? address = _
  rw [row?_adoptAll (hreleased.here.symm ▸ hremote), hreleased.row?]

/-! ## The gate of a node that has adopted snapshots -/

/-- Snapshots that are taken over as they are leave what is held back where it is. -/
theorem gate_adopt_of_not_consumed
    (h : (Snapshot.reconcile m.here snapshots m.gate.stash).consumedStash = false) :
    (m.adopt snapshots).1.gate = m.gate := by
  have hreleased : m.releaseStash false = m := by
    rw [releaseStash]
    cases m.gate <;> rfl
  rw [gate_adopt, h, hreleased]

/-- Others use it up. -/
theorem gate_adopt_of_consumed (hclosed : m.isReady = false)
    (h : (Snapshot.reconcile m.here snapshots m.gate.stash).consumedStash = true) :
    (m.adopt snapshots).1.gate = .closed [] := by
  rw [isReady] at hclosed
  rw [gate_adopt, h, releaseStash]
  cases hgate : m.gate with
  | closed held => rfl
  | opened =>
      rw [hgate] at hclosed
      cases hclosed

end

end Membership

end GossipRing
