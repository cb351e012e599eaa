import Mathlib.Data.List.Induction
import GossipRing.Proofs.Reconciliation

/-!
# Which claims are kept of snapshots that do not agree

Toward: what comes out of the merge, as a part of what went into it. The merge goes through the claims
once, and a newer one takes the place of an older one behind all others. So where a claim comes out is
no matter of when its member was first heard of, and has to be followed claim by claim.

* **`Snapshot.FirstHighest`** — where a claim about another member stands that none is newer than, and
  all before it are older. `FirstHighest.unique` and `firstHighest_concat_iff`: there is one for each
  member, and what one more claim makes of it.
* **`Snapshot.Picks`** — the claims that are kept are those at certain positions, in their order.
  `Picks.newest`: the newest claims are those that are first at the highest incarnation.
* **`Snapshot.reconcile_picks`** — what reconciliation answers, for any snapshots.
-/

namespace GossipRing.Snapshot

/-- At this position stands a claim about another member, as new as any about it, and the first such. -/
structure FirstHighest (here : String) (claims : List Change) (i : ℕ) (c : Change) : Prop where
  at_pos : claims[i]? = some c
  remote : c.address ≠ here
  named : ¬c.isMalformed
  le : ∀ d ∈ claims, d.address = c.address → d.incarnation ≤ c.incarnation
  first : ∀ j < i, ∀ d, claims[j]? = some d → d.address = c.address → d.incarnation < c.incarnation

/-- The claims that are kept are those at these positions, and there the first ones stand that are at
    the highest incarnation. -/
structure Picks (here : String) (claims kept : List Change) (positions : List ℕ) : Prop where
  ascending : positions.Pairwise (· < ·)
  mem_iff : ∀ i, i ∈ positions ↔ ∃ c, FirstHighest here claims i c
  kept_eq : kept = positions.filterMap (claims[·]?)

section

variable {here address : String} {c d k : Change} {claims kept : List Change} {i j : ℕ}
  {positions : List ℕ}

/-! ## Where the newest claims stand -/

namespace FirstHighest

theorem mem (h : FirstHighest here claims i c) : c ∈ claims := List.mem_of_getElem? h.at_pos

theorem lt_length (h : FirstHighest here claims i c) : i < claims.length :=
  (List.getElem?_eq_some_iff.mp h.at_pos).1

/-- **There is one for each member.** -/
theorem unique (h : FirstHighest here claims i c) (h' : FirstHighest here claims j d)
    (habout : c.address = d.address) : i = j := by
  have hnotafter : ∀ {i j c d}, FirstHighest here claims i c → FirstHighest here claims j d →
      c.address = d.address → ¬j < i := by
    intro i j c d h h' habout hlt
    have hnewer := h.first j hlt d h'.at_pos habout.symm
    exact UInt64.not_le.mpr hnewer (h'.le c h.mem habout)
  exact Nat.le_antisymm (Nat.not_lt.mp (hnotafter h h' habout))
    (Nat.not_lt.mp (hnotafter h' h habout.symm))

/-- The first highest claim stays so when a claim follows that is no newer. -/
theorem concat (h : FirstHighest here claims i d)
    (hle : c.address = d.address → c.incarnation ≤ d.incarnation) :
    FirstHighest here (claims ++ [c]) i d where
  at_pos := by
    rw [List.getElem?_append_left h.lt_length]
    exact h.at_pos
  remote := h.remote
  named := h.named
  le k hk habout := by
    rcases List.mem_append.mp hk with hk | hk
    · exact h.le k hk habout
    · obtain rfl := List.mem_singleton.mp hk
      exact hle habout
  first j hj k hk habout := by
    rw [List.getElem?_append_left (Nat.lt_trans hj h.lt_length)] at hk
    exact h.first j hj k hk habout

end FirstHighest

/-- The last claim is one if it is newer than all others about its member. -/
theorem firstHighest_last (hremote : c.address ≠ here) (hnamed : ¬c.isMalformed)
    (hnewer : ∀ d ∈ claims, d.address = c.address → d.incarnation < c.incarnation) :
    FirstHighest here (claims ++ [c]) claims.length c where
  at_pos := List.getElem?_concat_length
  remote := hremote
  named := hnamed
  le d hd habout := by
    rcases List.mem_append.mp hd with hd | hd
    · exact UInt64.le_of_lt (hnewer d hd habout)
    · obtain rfl := List.mem_singleton.mp hd
      exact UInt64.le_refl _
  first j hj d hd habout := by
    rw [List.getElem?_append_left hj] at hd
    exact hnewer d (List.mem_of_getElem? hd) habout

/-- **What one more claim makes of it**: where it is newer than the one that was, it takes its place. -/
theorem firstHighest_concat_iff : FirstHighest here (claims ++ [c]) i d ↔
    (FirstHighest here claims i d ∧ (c.address = d.address → c.incarnation ≤ d.incarnation)) ∨
      (i = claims.length ∧ d = c ∧ c.address ≠ here ∧ ¬c.isMalformed ∧
        ∀ k ∈ claims, k.address = c.address → k.incarnation < c.incarnation) := by
  constructor
  · intro h
    have hc : c ∈ claims ++ [c] := List.mem_append_right _ (List.mem_singleton_self c)
    have hi := h.lt_length
    rw [List.length_append, List.length_singleton] at hi
    -- the first highest is an old entry that the last one does not exceed, or it is the last one
    rcases Nat.lt_succ_iff_lt_or_eq.mp hi with hlt | rfl
    · have hat := h.at_pos
      rw [List.getElem?_append_left hlt] at hat
      refine Or.inl ⟨⟨hat, h.remote, h.named, ?_, ?_⟩, h.le c hc⟩
      · exact fun k hk => h.le k (List.mem_append_left _ hk)
      · intro j hj k hk
        refine h.first j hj k ?_
        rw [List.getElem?_append_left (Nat.lt_trans hj hlt)]
        exact hk
    · have hat := h.at_pos
      rw [List.getElem?_concat_length] at hat
      obtain rfl := Option.some.inj hat
      refine Or.inr ⟨rfl, rfl, h.remote, h.named, fun k hk => ?_⟩
      obtain ⟨j, hj⟩ := List.mem_iff_getElem?.mp hk
      have hlt := (List.getElem?_eq_some_iff.mp hj).1
      refine h.first j hlt k ?_
      rw [List.getElem?_append_left hlt]
      exact hj
  · rintro (⟨h, hle⟩ | ⟨rfl, rfl, hremote, hnamed, hnewer⟩)
    · exact h.concat hle
    · exact firstHighest_last hremote hnamed hnewer

/-! ## The merge, claim by claim -/

theorem newest_concat_of_other (hremote : c.address ≠ here) (hnamed : ¬c.isMalformed) :
    newest here (claims ++ [c]) = keepNewer (newest here claims) c := by
  have hlast : others here [c] = [c] :=
    List.filter_eq_self.mpr fun d hd => by
      obtain rfl := List.mem_singleton.mp hd
      rw [decide_eq_true hremote, Bool.eq_false_iff.mpr hnamed]
      rfl
  show (others here (claims ++ [c])).foldl keepNewer [] = _
  rw [others_append, hlast, List.foldl_append]
  rfl

theorem newest_concat_of_not (h : c.address = here ∨ c.isMalformed) :
    newest here (claims ++ [c]) = newest here claims := by
  have hlast : others here [c] = [] := by
    refine List.filter_eq_nil_iff.mpr fun d hd => ?_
    obtain rfl := List.mem_singleton.mp hd
    simpa [or_iff_not_imp_left] using h
  show (others here (claims ++ [c])).foldl keepNewer [] = _
  rw [others_append, hlast, List.append_nil]
  rfl

/-- What stands at a position is not changed by claims behind it. -/
theorem filterMap_concat (hin : ∀ i ∈ positions, i < claims.length) :
    positions.filterMap ((claims ++ [c])[·]?) = positions.filterMap (claims[·]?) :=
  List.filterMap_congr fun i hi => List.getElem?_append_left (hin i hi)

namespace Picks

theorem lt_length (h : Picks here claims kept positions) : ∀ i ∈ positions, i < claims.length := by
  intro i hi
  obtain ⟨c, hc⟩ := (h.mem_iff i).mp hi
  exact hc.lt_length

theorem mem_kept_iff (h : Picks here claims kept positions) :
    k ∈ kept ↔ ∃ i, FirstHighest here claims i k := by
  rw [h.kept_eq, List.mem_filterMap]
  constructor
  · rintro ⟨i, hi, hk⟩
    obtain ⟨c, hc⟩ := (h.mem_iff i).mp hi
    obtain rfl := Option.some.inj (hc.at_pos.symm.trans hk)
    exact ⟨i, hc⟩
  · rintro ⟨i, hk⟩
    exact ⟨i, (h.mem_iff i).mpr ⟨k, hk⟩, hk.at_pos⟩

/-- A claim that asks for nothing leaves the positions as they are. -/
theorem concat_of_old (h : Picks here claims kept positions)
    (hle : ∀ i d, FirstHighest here claims i d →
      c.address = d.address → c.incarnation ≤ d.incarnation)
    (hold : c.address ≠ here → ¬c.isMalformed →
      ∃ k ∈ claims, k.address = c.address ∧ c.incarnation ≤ k.incarnation) :
    Picks here (claims ++ [c]) kept positions where
  ascending := h.ascending
  mem_iff i := by
    rw [h.mem_iff i]
    refine exists_congr fun d => ?_
    rw [firstHighest_concat_iff]
    constructor
    · exact fun hd => Or.inl ⟨hd, hle i d hd⟩
    · rintro (⟨hd, -⟩ | ⟨-, -, hremote, hnamed, hnewer⟩)
      · exact hd
      · obtain ⟨k, hk, habout, hknown⟩ := hold hremote hnamed
        exact absurd (hnewer k hk habout) (UInt64.not_lt.mpr hknown)
  kept_eq := by
    rw [filterMap_concat h.lt_length]
    exact h.kept_eq

/-- A claim that is newer than all others about its member is put last, and the one that was kept
    about it is given up. -/
theorem concat_of_newer (h : Picks here claims kept positions) (hremote : c.address ≠ here)
    (hnamed : ¬c.isMalformed)
    (hnewer : ∀ k ∈ claims, k.address = c.address → k.incarnation < c.incarnation) :
    Picks here (claims ++ [c]) (kept.filter (fun k => k.address ≠ c.address) ++ [c])
      (positions.filter (fun i => (claims[i]?).all fun k => k.address ≠ c.address) ++
        [claims.length]) where
  ascending := by
    refine List.pairwise_append.mpr ⟨h.ascending.filter _, List.pairwise_singleton _ _, ?_⟩
    intro i hi j hj
    obtain rfl := List.mem_singleton.mp hj
    exact h.lt_length i (List.mem_filter.mp hi).1
  -- the older entries of the address go, wherever they stand, and the new one comes last
  mem_iff i := by
    rw [List.mem_append, List.mem_filter, List.mem_singleton, h.mem_iff i]
    constructor
    · rintro (⟨⟨d, hd⟩, hother⟩ | rfl)
      · rw [hd.at_pos] at hother
        exact ⟨d, hd.concat fun habout => absurd habout.symm (of_decide_eq_true hother)⟩
      · exact ⟨c, firstHighest_last hremote hnamed hnewer⟩
    · rintro ⟨d, hd⟩
      rcases firstHighest_concat_iff.mp hd with ⟨hd, hle⟩ | ⟨hlast, -⟩
      · refine Or.inl ⟨⟨d, hd⟩, ?_⟩
        rw [hd.at_pos]
        refine decide_eq_true fun habout => ?_
        exact UInt64.not_le.mpr (hnewer d hd.mem habout) (hle habout.symm)
      · exact Or.inr hlast
  kept_eq := by
    have hin : ∀ i ∈ positions.filter (fun i => (claims[i]?).all fun k => k.address ≠ c.address),
        i < claims.length := fun i hi => h.lt_length i (List.mem_filter.mp hi).1
    rw [List.filterMap_append, filterMap_concat hin, List.filterMap_filter, h.kept_eq,
      List.filter_filterMap]
    congr 1
    · refine List.filterMap_congr fun i _ => ?_
      cases claims[i]? with
      | none => rfl
      | some k =>
          by_cases habout : k.address = c.address
          · simp [habout]
          · simp [habout]
    · simp

end Picks

/-- **The newest claims are those that are first at the highest incarnation**, in the order in which
    they stand. -/
theorem picks_newest (here : String) (claims : List Change) :
    ∃ positions, Picks here claims (newest here claims) positions := by
  -- from the end, since the merge looks at a claim when all before it have been merged
  induction claims using List.reverseRecOn with
  | nil =>
      refine ⟨[], List.Pairwise.nil, fun i => ?_, rfl⟩
      exact ⟨fun hi => absurd hi List.not_mem_nil, fun ⟨c, hc⟩ => absurd hc.mem List.not_mem_nil⟩
  | append_singleton claims c ih =>
      obtain ⟨positions, h⟩ := ih
      by_cases hother : c.address ≠ here ∧ ¬c.isMalformed
      · obtain ⟨hremote, hnamed⟩ := hother
        rw [newest_concat_of_other hremote hnamed]
        have hleads := leads_newest here claims
        by_cases hknown : ∃ k ∈ newest here claims,
            k.address = c.address ∧ c.incarnation ≤ k.incarnation
        · rw [keepNewer_of_known hleads.distinct hknown]
          -- what is kept about the member is as new already
          obtain ⟨k, hk, habout, hle⟩ := hknown
          have hmem : k ∈ claims := mem_of_mem_newest hk
          refine ⟨positions, h.concat_of_old (fun i d hd hsame => ?_) fun _ _ => ?_⟩
          · exact UInt64.le_trans hle (hd.le k hmem (habout.trans hsame))
          · exact ⟨k, hmem, habout, hle⟩
        · have hnewer : ∀ d ∈ claims, d.address = c.address → d.incarnation < c.incarnation := by
            intro d hd habout
            have hdother : d ∈ others here claims :=
              mem_others.mpr ⟨hd, habout ▸ hremote, by rwa [Change.isMalformed, habout]⟩
            obtain ⟨k, hk, hsame, hle⟩ := hleads.covers d hdother
            have hkc : ¬c.incarnation ≤ k.incarnation :=
              fun hck => hknown ⟨k, hk, hsame.trans habout, hck⟩
            exact UInt64.lt_of_le_of_lt hle (UInt64.not_le.mp hkc)
          rw [keepNewer_of_newer fun k hk habout => hnewer k (mem_of_mem_newest hk) habout]
          exact ⟨_, h.concat_of_newer hremote hnamed hnewer⟩
      · have hnot : c.address = here ∨ c.isMalformed := by
          simpa [or_iff_not_imp_left] using hother
        rw [newest_concat_of_not hnot]
        refine ⟨positions, h.concat_of_old (fun i d hd habout => ?_) fun hremote hnamed => ?_⟩
        · refine absurd ⟨habout ▸ hd.remote, ?_⟩ hother
          rw [Change.isMalformed, habout]
          exact hd.named
        · exact absurd ⟨hremote, hnamed⟩ hother

/-- One claim is kept about every other member that something is claimed of. -/
theorem Picks.existsUnique (h : Picks here claims (newest here claims) positions)
    (hremote : address ≠ here) (hnamed : address ≠ "")
    (hclaimed : ∃ c ∈ claims, c.address = address) :
    ∃! i, i ∈ positions ∧ ∃ c, claims[i]? = some c ∧ c.address = address := by
  obtain ⟨c, hc, rfl⟩ := hclaimed
  have hother : c ∈ others here claims :=
    mem_others.mpr ⟨hc, hremote, fun hempty => hnamed (String.isEmpty_iff.mp hempty)⟩
  obtain ⟨k, hk, habout, -⟩ := (leads_newest here claims).covers c hother
  obtain ⟨i, hi⟩ := h.mem_kept_iff.mp hk
  refine ⟨i, ⟨(h.mem_iff i).mpr ⟨k, hi⟩, k, hi.at_pos, habout⟩, ?_⟩
  rintro j ⟨hj, d, hd, hsame⟩
  obtain ⟨e, he⟩ := (h.mem_iff j).mp hj
  obtain rfl := Option.some.inj (he.at_pos.symm.trans hd)
  exact he.unique hi (hsame.trans habout.symm)

/-! ## What reconciliation answers -/

/-- **Of snapshots that do not agree, and of what is held back, the first claim at the highest
    incarnation is kept for each other member**: those at these positions among all the claims, in the
    order in which they stand, one for each address that is not the node's own and not empty. What is
    held back is used up. Snapshots that agree stand for the first one, and nothing is used up. -/
theorem reconcile_picks (here : String) (snapshots : List Snapshot) (stash : List Change) :
    (snapshots ≠ [] → ¬Agreed snapshots →
      (reconcile here snapshots stash).consumedStash = true ∧
        ∃ positions,
          Picks here (snapshots.flatMap Snapshot.members ++ stash)
            (reconcile here snapshots stash).changes positions ∧
          ∀ address, address ≠ here → address ≠ "" →
            (∃ c ∈ snapshots.flatMap Snapshot.members ++ stash, c.address = address) →
            ∃! i, i ∈ positions ∧ ∃ c,
              (snapshots.flatMap Snapshot.members ++ stash)[i]? = some c ∧ c.address = address) ∧
      (snapshots = [] ∨ Agreed snapshots →
        reconcile here snapshots stash =
          ⟨(snapshots.head?.map Snapshot.members).getD [], false⟩) := by
  constructor
  · intro _ hdiffer
    rw [reconcile_of_not_agreed hdiffer]
    obtain ⟨positions, h⟩ := picks_newest here (snapshots.flatMap Snapshot.members ++ stash)
    exact ⟨rfl, positions, h, fun _ => h.existsUnique⟩
  · rintro (rfl | hagreed)
    · rfl
    · exact reconcile_of_agreed hagreed here stash

/-- Two snapshots that differ: the second one has `b` at the same incarnation and `c` at a higher one,
    and both have claims that are not taken over. -/
def ofTwoViews : List Snapshot :=
  [⟨some 1, [⟨"c", .alive, 1, "x", 1, 0⟩, ⟨"b", .alive, 2, "x", 1, 0⟩, ⟨"", .alive, 9, "x", 1, 0⟩]⟩,
    ⟨some 2, [⟨"b", .faulty, 2, "y", 1, 0⟩, ⟨"a", .faulty, 9, "y", 1, 0⟩,
      ⟨"c", .suspect, 3, "y", 1, 0⟩]⟩]

/-- `b` is kept from the first one and `c` from the second, behind it. -/
theorem reconcile_picks_of_two_views :
    (reconcile "a" ofTwoViews [⟨"b", .alive, 1, "z", 1, 0⟩]).consumedStash = true ∧
      (reconcile "a" ofTwoViews [⟨"b", .alive, 1, "z", 1, 0⟩]).changes =
        [⟨"b", .alive, 2, "x", 1, 0⟩, ⟨"c", .suspect, 3, "y", 1, 0⟩] ∧
      (∃ positions,
        Picks "a" (ofTwoViews.flatMap Snapshot.members ++ [⟨"b", .alive, 1, "z", 1, 0⟩])
          [⟨"b", .alive, 2, "x", 1, 0⟩, ⟨"c", .suspect, 3, "y", 1, 0⟩] positions ∧
        ∃! i, i ∈ positions ∧ ∃ c,
          (ofTwoViews.flatMap Snapshot.members ++ [⟨"b", .alive, 1, "z", 1, 0⟩])[i]? = some c ∧
            c.address = "b") ∧
      reconcile "a" [] [⟨"b", .alive, 1, "z", 1, 0⟩] = ⟨[], false⟩ := by
  have hdiffer : ¬Agreed ofTwoViews := by
    rintro ⟨checksum, hall⟩
    have hone : some 1 = some checksum := hall _ List.mem_cons_self
    have htwo : some 2 = some checksum := hall _ (List.mem_cons_of_mem _ List.mem_cons_self)
    cases hone.trans htwo.symm
  obtain ⟨hconsumed, positions, hpicks, hunique⟩ :=
    (reconcile_picks "a" ofTwoViews [⟨"b", .alive, 1, "z", 1, 0⟩]).1 (List.cons_ne_nil _ _) hdiffer
  have hchanges : (reconcile "a" ofTwoViews [⟨"b", .alive, 1, "z", 1, 0⟩]).changes =
      [⟨"b", .alive, 2, "x", 1, 0⟩, ⟨"c", .suspect, 3, "y", 1, 0⟩] := by decide +kernel
  rw [hchanges] at hpicks
  refine ⟨hconsumed, hchanges, ⟨positions, hpicks, hunique "b" (by decide) (by decide) ?_⟩, ?_⟩
  · exact ⟨⟨"b", .alive, 2, "x", 1, 0⟩, by decide, rfl⟩
  · exact (reconcile_picks "a" [] _).2 (Or.inl rfl)

end

end GossipRing.Snapshot
