import GossipRing.Proofs.Reconciliation
import GossipRing.Proofs.Silence

/-!
# Snapshots that agree

Toward: taking the first of several snapshots with one checksum, without a look at the others, leads to
what the merge of all of them leads to. The checksum tells the text of a snapshot unless the hash
collides, and the text tells the rows, but in no order. So the merge has to be followed as well: the
first snapshot goes through it unchanged, and nothing in the others is newer.

* **`Snapshot.Genuine`** — a snapshot as a table sends it (`Membership.genuine_snapshot`): a claim for
  each member, and the checksum of these.
* **`Snapshot.rows_perm`** — genuine snapshots with one checksum have the same rows.
* **`Snapshot.newest_of_known`** — merging snapshots with the rows of the first one gives that one's
  claims about others, in its order.
* **`Membership.adoptAll_others`** — claims about the node itself and about nobody can be left out at
  once, or when their turn comes.
* **`Membership.adopt_unsigned`** — without their checksums the snapshots are merged, and the table and
  the claims that take effect are the same.
-/

namespace GossipRing

namespace Snapshot

/-- The rows that a snapshot asks for. -/
def rows (s : Snapshot) : List Member := s.members.map Change.toMember

/-- What the checksum of a snapshot is the hash of. -/
def text (s : Snapshot) : String := Member.joinedText s.rows

/-- The snapshot without its checksum. -/
def unsigned (s : Snapshot) : Snapshot := { s with checksum := none }

/-- A snapshot as a table sends it, unless an address has a semicolon in it. -/
structure Genuine (hash : HashFunction) (s : Snapshot) : Prop where
  distinct : ((s.members.filter fun c => !c.isMalformed).map Change.address).Nodup
  plain : ∀ c ∈ s.members, ';' ∉ c.address.toList
  signed : s.checksum = some (hash s.text)

section

variable {here : String} {hash : HashFunction} {c : Change} {claims kept rest : List Change}
  {first s s' : Snapshot} {snapshots more : List Snapshot}

/-! ## What one checksum says -/

/-- **Genuine snapshots with one checksum have the same rows**, in whatever order, unless the hash takes
    their texts for one. -/
theorem rows_perm (hs : s.Genuine hash) (hs' : s'.Genuine hash) (hsame : s.checksum = s'.checksum)
    (htells : hash s.text = hash s'.text → s.text = s'.text) : s.rows.Perm s'.rows := by
  rw [hs.signed, hs'.signed] at hsame
  have hplain : ∀ {s : Snapshot}, s.Genuine hash → ∀ row ∈ s.rows, ';' ∉ row.address.toList := by
    intro s hs row hrow
    obtain ⟨c, hc, rfl⟩ := List.mem_map.mp hrow
    exact hs.plain c hc
  exact (Member.joinedText_eq_iff (hplain hs) (hplain hs')).mp (htells (Option.some.inj hsame))

/-- Without checksums no snapshots agree. -/
theorem not_agreed_unsigned (hne : snapshots ≠ []) : ¬Agreed (snapshots.map unsigned) := by
  rintro ⟨checksum, hall⟩
  obtain ⟨s, hs⟩ := List.exists_mem_of_ne_nil snapshots hne
  have hunknown := hall s.unsigned (List.mem_map_of_mem hs)
  cases hunknown

theorem flatMap_unsigned (snapshots : List Snapshot) :
    (snapshots.map unsigned).flatMap members = snapshots.flatMap members := by
  rw [List.flatMap_map]
  rfl

/-! ## What becomes of the first snapshot, and of the others -/

theorem others_others (here : String) (claims : List Change) :
    others here (others here claims) = others here claims :=
  List.filter_eq_self.mpr fun _ hc => (List.mem_filter.mp hc).2

theorem Genuine.distinct_others (hs : s.Genuine hash) (here : String) :
    ((others here s.members).map Change.address).Nodup := by
  have hsub : (others here s.members).Sublist (s.members.filter fun c => !c.isMalformed) := by
    refine List.monotone_filter_right s.members ?_
    intro c hc
    exact (Bool.and_eq_true_iff.mp hc).2
  exact hs.distinct.sublist (hsub.map Change.address)

/-- Claims about different members are kept as they come. -/
theorem foldl_keepNewer_of_distinct (h : ((kept ++ rest).map Change.address).Nodup) :
    rest.foldl keepNewer kept = kept ++ rest := by
  induction rest generalizing kept with
  | nil => rw [List.append_nil, List.foldl_nil]
  | cons c rest ih =>
      have hnone : entry? c.address kept = none := by
        rw [List.map_append, List.nodup_append] at h
        refine entry?_eq_none_iff.mpr fun k hk => ?_
        exact h.2.2 k.address (List.mem_map_of_mem hk) c.address List.mem_cons_self
      have hstep : keepNewer kept c = kept ++ [c] := by
        rw [keepNewer, hnone]
      rw [List.foldl_cons, hstep, ih (by rwa [List.append_assoc]), List.append_assoc,
        List.singleton_append]

theorem foldl_keepNewer_of_known (hdistinct : (kept.map Change.address).Nodup)
    (h : ∀ c ∈ rest, ∃ k ∈ kept, k.address = c.address ∧ c.incarnation ≤ k.incarnation) :
    rest.foldl keepNewer kept = kept := by
  induction rest with
  | nil => rfl
  | cons c rest ih =>
      rw [List.foldl_cons, keepNewer_of_known hdistinct (h c List.mem_cons_self)]
      exact ih fun d hd => h d (List.mem_cons_of_mem _ hd)

/-- **Merging snapshots with the rows of the first one gives that one's claims about others**, in its
    order. -/
theorem newest_of_known (hfirst : first.Genuine hash) (h : ∀ s ∈ more, s.rows.Perm first.rows) :
    newest here ((first :: more).flatMap members) = others here first.members := by
  -- whatever a later snapshot says of a peer, the first one says too, at the same incarnation
  have hknown : ∀ c ∈ others here (more.flatMap members),
      ∃ k ∈ others here first.members, k.address = c.address ∧ c.incarnation ≤ k.incarnation := by
    intro c hc
    obtain ⟨hmem, hremote, hnamed⟩ := mem_others.mp hc
    obtain ⟨s, hs, hcs⟩ := List.mem_flatMap.mp hmem
    have hrow : c.toMember ∈ first.rows := (h s hs).mem_iff.mp (List.mem_map_of_mem hcs)
    obtain ⟨k, hk, hsame⟩ := List.mem_map.mp hrow
    have habout : k.address = c.address := congrArg Member.address hsame
    have hinc : k.incarnation = c.incarnation := congrArg Member.incarnation hsame
    refine ⟨k, mem_others.mpr ⟨hk, habout ▸ hremote, ?_⟩, habout, hinc ▸ UInt64.le_refl _⟩
    rwa [Change.isMalformed, habout]
  have hself : (others here first.members).foldl keepNewer [] = others here first.members :=
    foldl_keepNewer_of_distinct (hfirst.distinct_others here)
  calc newest here ((first :: more).flatMap members)
      = (others here (first.members ++ more.flatMap members)).foldl keepNewer [] := rfl
    _ = (others here (more.flatMap members)).foldl keepNewer
          ((others here first.members).foldl keepNewer []) := by
        rw [others_append, List.foldl_append]
    _ = (others here (more.flatMap members)).foldl keepNewer (others here first.members) := by
        rw [hself]
    _ = others here first.members :=
        foldl_keepNewer_of_known (hfirst.distinct_others here) hknown

end

end Snapshot

namespace Membership

open Snapshot (others)

variable {m : Membership} {snapshots : List Snapshot}

/-- **What a table sends is a genuine snapshot**, if it has rows. -/
theorem genuine_snapshot (hm : m.Reached) (hplain : m.Plain) (hrows : m.rows ≠ []) (now : Clock) :
    (⟨m.checksum, m.snapshot now⟩ : Snapshot).Genuine m.hash := by
  have hsame : (⟨m.checksum, m.snapshot now⟩ : Snapshot).rows = m.rows := by
    rw [Snapshot.rows, snapshot, List.map_map]
    exact List.map_id _
  refine ⟨?_, ?_, ?_⟩
  · have haddresses : (m.snapshot now).map Change.address = m.rows.map Member.address := by
      rw [snapshot, List.map_map]
      rfl
    refine List.Nodup.sublist (List.filter_sublist.map Change.address) ?_
    rw [haddresses]
    exact hm.distinct
  · intro c hc
    obtain ⟨row, hrow, rfl⟩ := List.mem_map.mp hc
    exact hplain row hrow
  · rw [Snapshot.text, hsame]
    exact hm.checksum_cases.resolve_right fun hnone => hrows hnone.2

theorem adoptAll_cons (m : Membership) (c : Change) (rest : List Change) :
    m.adoptAll (c :: rest) =
      (((m.adoptOne c).1.adoptAll rest).1,
        (m.adoptOne c).2.toList ++ ((m.adoptOne c).1.adoptAll rest).2) := rfl

/-- **Claims about the node itself and about nobody can be left out at once.** -/
theorem adoptAll_others (m : Membership) (claims : List Change) :
    m.adoptAll (others m.here claims) = m.adoptAll claims := by
  induction claims generalizing m with
  | nil => rfl
  | cons c rest ih =>
      -- an entry that is left out by one side is skipped by the other
      by_cases hother : c.address ≠ m.here ∧ ¬c.isMalformed
      · have hhere : (m.adoptOne c).1.here = m.here := by
          rw [adoptOne_eq, here_putAll]
        have hkeep : others m.here (c :: rest) = c :: others (m.adoptOne c).1.here rest := by
          rw [hhere, others, List.filter_cons_of_pos (by simpa using hother)]
          rfl
        rw [hkeep, adoptAll_cons, adoptAll_cons, ih]
      · have hdrop : others m.here (c :: rest) = others m.here rest := by
          rw [others, List.filter_cons_of_neg (by simpa using hother)]
          rfl
        have hskip : m.adoptOne c = (m, none) := by
          rw [adoptOne]
          exact if_pos (by simpa [or_iff_not_imp_left] using hother)
        rw [hdrop, ih, adoptAll_cons, hskip]
        rfl

/-- Where nothing is held back nothing is let go of. -/
theorem releaseStash_of_nil (h : m.gate.stash = []) (consumed : Bool) :
    m.releaseStash consumed = m := by
  rw [releaseStash]
  cases hgate : m.gate with
  | opened => rfl
  | closed held =>
      rw [hgate] at h
      obtain rfl : held = [] := h
      cases consumed with
      | false => rfl
      | true =>
          dsimp only
          rw [if_pos rfl, ← hgate]

/-- What is adopted depends on the claims about others only, as long as nothing is held back. -/
theorem adopt_congr {snapshots' : List Snapshot} (hstash : m.gate.stash = [])
    (h : others m.here (Snapshot.reconcile m.here snapshots m.gate.stash).changes =
      others m.here (Snapshot.reconcile m.here snapshots' m.gate.stash).changes) :
    m.adopt snapshots = m.adopt snapshots' := by
  rw [adopt, adopt, releaseStash_of_nil hstash, releaseStash_of_nil hstash, ← adoptAll_others, h,
    adoptAll_others]

/-- **Taking the first of the snapshots that agree is merging them all.** Without their checksums they
    are merged: the table is the same, and so are the claims that take effect and their order. -/
theorem adopt_unsigned (hstash : m.gate.stash = []) (hne : snapshots ≠ [])
    (hagreed : Snapshot.Agreed snapshots) (hgenuine : ∀ s ∈ snapshots, s.Genuine m.hash)
    (htells : ∀ s ∈ snapshots, ∀ s' ∈ snapshots, m.hash s.text = m.hash s'.text → s.text = s'.text) :
    (Snapshot.reconcile m.here snapshots m.gate.stash).consumedStash = false ∧
      (Snapshot.reconcile m.here (snapshots.map Snapshot.unsigned) m.gate.stash).consumedStash =
        true ∧
      m.adopt snapshots = m.adopt (snapshots.map Snapshot.unsigned) := by
  have htaken := Snapshot.reconcile_of_agreed hagreed m.here m.gate.stash
  have hmerged :=
    Snapshot.reconcile_of_not_agreed (Snapshot.not_agreed_unsigned hne) m.here m.gate.stash
  refine ⟨by rw [htaken], by rw [hmerged], adopt_congr hstash ?_⟩
  obtain ⟨first, more, rfl⟩ := List.exists_cons_of_ne_nil hne
  have hfirst := hgenuine first List.mem_cons_self
  have hrows : ∀ s ∈ more, s.rows.Perm first.rows := by
    intro s hs
    have hmem : s ∈ first :: more := List.mem_cons_of_mem _ hs
    obtain ⟨checksum, hall⟩ := hagreed
    refine Snapshot.rows_perm (hgenuine s hmem) hfirst ?_ (htells s hmem first List.mem_cons_self)
    rw [hall s hmem, hall first List.mem_cons_self]
  rw [htaken, hmerged, Snapshot.flatMap_unsigned, hstash, List.append_nil,
    Snapshot.newest_of_known hfirst hrows, Snapshot.others_others]
  rfl

/-- What `b` and `d` send to `a`: the same rows in another order, and each as its own claims. -/
def ofTwoNodes : List Snapshot :=
  let rows : List Member := [⟨"a", .suspect, 1⟩, ⟨"b", .alive, 1⟩, ⟨"c", .faulty, 3⟩]
  let checksum := hash32 (Member.joinedText rows)
  [⟨some checksum, rows.map fun row => Change.ofMember row "b" 1 5⟩,
    ⟨some checksum, rows.reverse.map fun row => Change.ofMember row "d" 8 6⟩]

/-- What they send is merged without checksums, and taken as it is with them. -/
theorem adopt_unsigned_of_two_nodes :
    (empty "a" hash32 .none).adopt ofTwoNodes =
        (empty "a" hash32 .none).adopt (ofTwoNodes.map Snapshot.unsigned) ∧
      ((empty "a" hash32 .none).adopt ofTwoNodes).2 =
        [⟨"b", .alive, 1, "b", 1, 5⟩, ⟨"c", .faulty, 3, "b", 1, 5⟩] := by
  have htext : ∀ s ∈ ofTwoNodes,
      s.text = Member.joinedText [⟨"a", .suspect, 1⟩, ⟨"b", .alive, 1⟩, ⟨"c", .faulty, 3⟩] := by
    intro s hs
    refine (Member.joinedText_eq_iff ?_ (by decide)).mpr (List.isPerm_iff.mp ?_)
    all_goals
      revert s
      decide
  have hsigned : ∀ s ∈ ofTwoNodes, s.checksum = some (hash32 s.text) := by
    intro s hs
    rw [htext s hs]
    revert s
    simp [ofTwoNodes]
  have hgenuine : ∀ s ∈ ofTwoNodes, s.Genuine hash32 := by
    intro s hs
    refine ⟨?_, ?_, hsigned s hs⟩
    all_goals
      revert s
      decide
  have hagreed : Snapshot.Agreed ofTwoNodes :=
    ⟨_, fun s hs => (hsigned s hs).trans (congrArg (some ∘ hash32) (htext s hs))⟩
  have hne : ofTwoNodes ≠ [] := List.cons_ne_nil _ _
  have hadopt := (adopt_unsigned (m := empty "a" hash32 .none) rfl hne hagreed hgenuine
    fun s hs s' hs' _ => (htext s hs).trans (htext s' hs').symm).2.2
  refine ⟨hadopt, ?_⟩
  rw [hadopt]
  decide +kernel

end Membership

end GossipRing
