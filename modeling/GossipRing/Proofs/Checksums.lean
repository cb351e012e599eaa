import GossipRing.Proofs.Convergence
import GossipRing.Proofs.Lifetime

/-!
# Checksums are never stale

Toward: nodes whose checksums agree skip the exchange of their tables, so a checksum has to speak of
the table that it is sent for. It is not computed when it is asked for, but kept, and renewed by some
of the operations only.

* **`bytes`**, **`bytes_le`** — texts are compared as their bytes are.
* **`Describes`** — what the checksum of some rows is: the hash of their texts, sorted by bytes and
  joined. It does not depend on the order of the rows (`Describes.unique`).
* **`Op.Stirs`**, **`Op.renews`** — an operation in which a claim takes effect, or which adopts
  snapshots, renews the checksum. Any other leaves the rows alone.
* **`Stirred`**, **`run_renews`** — the same of a run.
* **`Fits`** — what may be sent as the checksum of some rows: none has been computed only where there
  are none.
-/

namespace GossipRing

/-! ## Texts by their bytes -/

/-- The bytes of a text. -/
def bytes (text : String) : List UInt8 := text.toUTF8.data.toList

theorem bytes_eq (text : String) : bytes text = text.toList.flatMap String.utf8EncodeChar := by
  rw [bytes, String.toUTF8, ← String.utf8Encode_toList, List.utf8Encode,
    List.toList_data_toByteArray]

/-- The bytes of a smaller character are smaller, whatever follows. -/
theorem utf8EncodeChar_append_lt {c d : Char} (h : c < d) (first second : List UInt8) :
    String.utf8EncodeChar c ++ first < String.utf8EncodeChar d ++ second := by
  have hlt : c.val.toNat < d.val.toNat := h
  have hbound : d.val.toNat < 0x110000 := by
    have hvalid := d.valid
    simp only [UInt32.isValidChar, Nat.isValidChar] at hvalid
    omega
  rw [String.utf8EncodeChar, String.utf8EncodeChar]
  -- by how many bytes either of them takes; a first byte tells the number
  split_ifs
  all_goals
    simp (disch := omega) only [List.cons_append, List.nil_append, List.cons_lt_cons_iff,
      UInt8.lt_iff_toNat_lt, ← UInt8.toNat_inj, UInt8.toNat_ofNat', Nat.reducePow,
      Nat.mod_eq_of_lt]
    omega

/-- Encoding keeps the order of texts, by the first character in which they differ. -/
theorem flatMap_utf8EncodeChar_lt {first second : List Char} (h : first < second) :
    first.flatMap String.utf8EncodeChar < second.flatMap String.utf8EncodeChar := by
  induction first generalizing second with
  | nil =>
      cases second with
      | nil => exact absurd h (List.lt_irrefl [])
      | cons d rest =>
          rw [List.flatMap_nil, List.flatMap_cons]
          cases hbytes : String.utf8EncodeChar d with
          | nil => exact absurd hbytes String.utf8EncodeChar_ne_nil
          | cons byte more => exact List.nil_lt_cons byte _
  | cons c rest ih =>
      cases second with
      | nil => exact absurd h (List.not_lt_nil _)
      | cons d rest' =>
          rw [List.flatMap_cons, List.flatMap_cons]
          rcases List.cons_lt_cons_iff.mp h with hlt | ⟨rfl, hrest⟩
          · exact utf8EncodeChar_append_lt hlt _ _
          · exact List.append_left_lt (ih hrest)

theorem bytes_lt {s t : String} (h : s < t) : bytes s < bytes t := by
  rw [bytes_eq, bytes_eq]
  exact flatMap_utf8EncodeChar_lt (String.lt_iff_toList_lt.mp h)

/-- **Texts are ordered as their bytes are.** -/
theorem bytes_le {s t : String} (h : s ≤ t) : bytes s ≤ bytes t := by
  rcases lt_or_eq_of_le h with hlt | rfl
  · exact List.le_of_lt (bytes_lt hlt)
  · exact List.le_refl _

/-- Texts whose bytes are not apart in the order are the same text. -/
theorem eq_of_bytes_le {s t : String} (h : bytes s ≤ bytes t) (h' : bytes t ≤ bytes s) : s = t := by
  rcases lt_trichotomy s t with hlt | heq | hlt
  · exact absurd (bytes_lt hlt) (List.not_lt.mpr h')
  · exact heq
  · exact absurd (bytes_lt hlt) (List.not_lt.mpr h)

namespace Membership

/-! ## Checksums of rows -/

/-- The checksum of these rows is the hash of their texts, sorted by bytes and joined. -/
def Describes (hash : HashFunction) (rows : List Member) (checksum : UInt32) : Prop :=
  ∃ texts : List String, texts.Perm (rows.map Member.checksumText) ∧
    (texts.Pairwise fun s t => bytes s ≤ bytes t) ∧
    checksum = hash (String.intercalate ";" texts)

/-- **Rows have one checksum**, in whatever order they stand. -/
theorem Describes.unique {hash : HashFunction} {rows rows' : List Member} {c c' : UInt32}
    (h : Describes hash rows c) (h' : Describes hash rows' c') (hrows : rows.Perm rows') :
    c = c' := by
  obtain ⟨texts, hperm, hsorted, rfl⟩ := h
  obtain ⟨texts', hperm', hsorted', rfl⟩ := h'
  have hsame : texts.Perm texts' := (hperm.trans (hrows.map _)).trans hperm'.symm
  rw [List.Perm.eq_of_pairwise (fun s t _ _ => eq_of_bytes_le) hsorted hsorted' hsame]

/-- What is computed as the checksum of a table is that of its rows. -/
theorem describes_computeChecksum (m : Membership) :
    Describes m.hash m.rows m.computeChecksum := by
  refine ⟨_, List.mergeSort_perm _ _, ?_, rfl⟩
  exact (pairwise_mergeSort _).imp fun h => bytes_le (of_decide_eq_true h)

/-! ## What an operation does to the checksum -/

/-- A claim took effect, or snapshots were adopted. -/
def Op.Stirs (op : Op) (effects : List Change) : Prop :=
  effects ≠ [] ∨ ∃ snapshots, op = .adopt snapshots

section

variable {now : Clock} {m m' m₁ : Membership} {op : Op} {claims effects : List Change}
  {rest : List (Clock × Op)}

/-- The rows and their checksum are as they were. -/
structure Unstirred (m m' : Membership) : Prop where
  rows : m'.rows = m.rows
  hash : m'.hash = m.hash
  checksum : m'.checksum = m.checksum

theorem Unstirred.computeChecksum (h : Unstirred m m') :
    m'.computeChecksum = m.computeChecksum := by
  rw [Membership.computeChecksum, Membership.computeChecksum, checksumText, checksumText, h.hash,
    h.rows]

/-- A batch renews the checksum if one of its claims takes effect. -/
theorem renews_update {localAlive : Bool} (h : m.update now claims localAlive = .done m' effects) :
    effects ≠ [] ∧ m'.checksum = some m'.computeChecksum ∨ effects = [] ∧ Unstirred m m' := by
  rw [update] at h
  split at h
  · obtain ⟨m₁, happlied, rfl⟩ := applyBatch_eq_done h
    cases effects with
    | nil =>
        obtain rfl := happlied.eq_putAll
        exact Or.inr ⟨rfl, rfl, rfl, rfl⟩
    | cons e more => exact Or.inl ⟨List.cons_ne_nil e more, rfl⟩
  · obtain ⟨rfl, rfl⟩ := Attempt.done.inj h
    exact Or.inr ⟨rfl, rfl, rfl, rfl⟩

/-- **An operation that stirs renews the checksum**, and any other leaves the rows alone. -/
theorem Op.renews (h : op.apply now m = .done m' effects) :
    op.Stirs effects ∧ m'.checksum = some m'.computeChecksum ∨
      ¬op.Stirs effects ∧ Unstirred m m' := by
  -- whatever is no adoption stirs exactly if it has effects
  have hupdate : (∀ snapshots, op ≠ .adopt snapshots) →
      effects ≠ [] ∧ m'.checksum = some m'.computeChecksum ∨ effects = [] ∧ Unstirred m m' →
      op.Stirs effects ∧ m'.checksum = some m'.computeChecksum ∨
        ¬op.Stirs effects ∧ Unstirred m m' := by
    rintro hother (⟨hne, hrenewed⟩ | ⟨rfl, hsame⟩)
    · exact Or.inl ⟨Or.inl hne, hrenewed⟩
    · refine Or.inr ⟨?_, hsame⟩
      rintro (hne | ⟨snapshots, hadopt⟩)
      · exact hne rfl
      · exact hother snapshots hadopt
  cases op with
  | update claims localAlive =>
      exact hupdate (fun _ hadopt => nomatch hadopt) (renews_update h)
  | assert address status incarnation =>
      have h : m.update now [m.ownClaim now address status incarnation]
          (status = .alive && address = m.here) = .done m' effects := h
      exact hupdate (fun _ hadopt => nomatch hadopt) (renews_update h)
  | adopt snapshots =>
      obtain ⟨rfl, -⟩ := Attempt.done.inj h
      exact Or.inl ⟨Or.inr ⟨snapshots, rfl⟩, rfl⟩
  | openGate =>
      refine hupdate (fun _ hadopt => nomatch hadopt) ?_
      have h : m.openGate now = .done m' effects := h
      rw [Membership.openGate] at h
      split at h
      · obtain ⟨rfl, rfl⟩ := Attempt.done.inj h
        exact Or.inr ⟨rfl, rfl, rfl, rfl⟩
      · refine (renews_update h).imp_right ?_
        rintro ⟨hnone, hsame⟩
        exact ⟨hnone, hsame.rows, hsame.hash, hsame.checksum⟩

/-! ## Runs -/

/-- Somewhere in the run a claim took effect, or snapshots were adopted. -/
def Stirred (m : Membership) (ops : List (Clock × Op)) : Prop :=
  ∃ first now op rest m₁ m₂ effects, ops = first ++ (now, op) :: rest ∧
    m.run first = .done m₁ () ∧ op.apply now m₁ = .done m₂ effects ∧ op.Stirs effects

theorem not_stirred_nil (m : Membership) : ¬Stirred m [] := by
  rintro ⟨first, now, op, rest, m₁, m₂, effects, hops, -⟩
  exact absurd hops.symm (List.append_ne_nil_of_right_ne_nil _ (List.cons_ne_nil _ _))

/-- The first operation stirs, or the rest of the run does. -/
theorem stirred_cons (h : op.apply now m = .done m₁ effects) :
    Stirred m ((now, op) :: rest) ↔ op.Stirs effects ∨ Stirred m₁ rest := by
  constructor
  · rintro ⟨first, now', op', rest', before, after, effects', hops, hfirst, happly, hstirs⟩
    cases first with
    | nil =>
        obtain ⟨hentry, rfl⟩ := List.cons.inj hops
        obtain ⟨rfl, rfl⟩ := Prod.mk.inj hentry
        obtain ⟨rfl, -⟩ := Attempt.done.inj hfirst
        obtain ⟨-, rfl⟩ := Attempt.done.inj (h.symm.trans happly)
        exact Or.inl hstirs
    | cons entry more =>
        obtain ⟨rfl, rfl⟩ := List.cons.inj hops
        rw [run, h, Attempt.andThen_done] at hfirst
        exact Or.inr ⟨more, now', op', rest', before, after, effects', rfl, hfirst, happly, hstirs⟩
  · rintro (hstirs | ⟨first, now', op', rest', before, after, effects', rfl, hfirst, happly, hstirs⟩)
    · exact ⟨[], now, op, rest, m, m₁, effects, rfl, rfl, h, hstirs⟩
    · refine ⟨(now, op) :: first, now', op', rest', before, after, effects', rfl, ?_, happly, hstirs⟩
      rw [run, h, Attempt.andThen_done]
      exact hfirst

/-- **A run that stirs leaves a checksum of the rows that it leaves**, and any other leaves the rows
    and the checksum alone. -/
theorem run_renews {ops : List (Clock × Op)} (hrun : m.run ops = .done m' ()) :
    Stirred m ops ∧ m'.checksum = some m'.computeChecksum ∨ ¬Stirred m ops ∧ Unstirred m m' := by
  induction ops generalizing m with
  | nil =>
      obtain ⟨rfl, -⟩ := Attempt.done.inj hrun
      exact Or.inr ⟨not_stirred_nil m, rfl, rfl, rfl⟩
  | cons entry rest ih =>
      obtain ⟨now, op⟩ := entry
      rw [run] at hrun
      obtain ⟨m₁, effects, happly, hrest⟩ := Attempt.andThen_eq_done hrun
      rw [stirred_cons happly]
      rcases ih hrest with ⟨hstirred, hrenewed⟩ | ⟨hquiet, hsame⟩
      · exact Or.inl ⟨Or.inr hstirred, hrenewed⟩
      · rcases op.renews happly with ⟨hstirs, hrenewed⟩ | ⟨hstill, hsame₁⟩
        · -- what follows leaves the renewed checksum and its rows as they are
          refine Or.inl ⟨Or.inl hstirs, ?_⟩
          rw [hsame.checksum, hrenewed, hsame.computeChecksum]
        · exact Or.inr ⟨not_or.mpr ⟨hstill, hquiet⟩, hsame.rows.trans hsame₁.rows,
            hsame.hash.trans hsame₁.hash, hsame.checksum.trans hsame₁.checksum⟩

theorem hash_run {ops : List (Clock × Op)} (hrun : m.run ops = .done m' ()) :
    m'.hash = m.hash :=
  run_induction (P := fun m' => m'.hash = m.hash)
    (fun hm happly => (Op.hash_eq happly).trans hm) rfl hrun

/-- **What a run of an empty table leaves as its checksum.** -/
theorem checksum_of_run {here : String} {hash : HashFunction} {chance : Chance}
    {ops : List (Clock × Op)} (hrun : (empty here hash chance).run ops = .done m ()) :
    (m.checksum = none ↔ ¬Stirred (empty here hash chance) ops) ∧
      (m.checksum = none → m.rows = []) ∧
      ∀ checksum, m.checksum = some checksum → Describes hash m.rows checksum := by
  rcases run_renews hrun with ⟨hstirred, hrenewed⟩ | ⟨hquiet, hsame⟩
  · have hsome : m.checksum ≠ none := by
      rw [hrenewed]
      exact Option.some_ne_none _
    refine ⟨iff_of_false hsome (not_not_intro hstirred), fun hnone => absurd hnone hsome, ?_⟩
    intro checksum hchecksum
    obtain rfl := Option.some.inj (hrenewed.symm.trans hchecksum)
    have hhash : m.hash = hash := hash_run hrun
    rw [← hhash]
    exact describes_computeChecksum m
  · have hnone : m.checksum = none := hsame.checksum
    refine ⟨iff_of_true hnone hquiet, fun _ => hsame.rows, ?_⟩
    intro checksum hchecksum
    exact absurd (hnone.symm.trans hchecksum) (Option.some_ne_none checksum).symm

/-! ## What is sent -/

/-- What may be sent as the checksum of these rows: it describes them, or none has been computed and
    there are none. -/
def Fits (hash : HashFunction) (rows : List Member) : Option UInt32 → Prop
  | some checksum => Describes hash rows checksum
  | none => rows = []

/-- The checksum of a table that has been reached fits its rows. -/
theorem Reached.fits (hm : m.Reached) : Fits m.hash m.rows m.checksum := by
  obtain ⟨here, hash, chance, ops, hrun⟩ := hm
  have hhash : m.hash = hash := hash_run hrun
  obtain ⟨-, hempty, hdescribes⟩ := checksum_of_run hrun
  rw [hhash]
  cases hchecksum : m.checksum with
  | none => exact hempty hchecksum
  | some checksum => exact hdescribes checksum hchecksum

/-- **An answer to a join carries the whole table and its checksum.** -/
theorem fits_answerJoin {n n' : Node} {now : Moment} {r : JoinRequest} {response : JoinResponse}
    (hn : n.membership.Reached) (h : n.answerJoin now r = .done n' (.ok response)) :
    response.membership.map Change.toMember = n'.membership.rows ∧
      Fits n.membership.hash n'.membership.rows response.checksum := by
  obtain ⟨-, ⟨effects, hassert⟩, hmembership, hchecksum⟩ := Node.answerJoin_eq_ok h
  obtain ⟨m₁, happly, rfl⟩ := Node.settle_eq_done hassert
  have happly : (Op.assert r.source .alive r.incarnation).apply now.wall n.membership =
      .done m₁ effects := happly
  rw [hmembership, hchecksum]
  constructor
  · rw [snapshot, List.map_map]
    exact List.map_id _
  · rw [Node.membership_spread, ← Op.hash_eq happly]
    exact (hn.apply happly).fits

end

/-- **Checksums are never stale.**

    Take any hash function. After a completed run of an empty table there is no checksum exactly if
    no claim has taken effect and no snapshots have been adopted, and then there are no rows. Any
    other run leaves the hash of the rows' texts, sorted by bytes and joined by semicolons. So two
    runs that leave the same rows leave the same checksum, wherever the rows stand.

    Whatever happens to a new node, the checksum that it sends with a ping, or with a request to
    ping, is that of its table. The one in its answer to a join is that of its table after the sender
    was heard, and so of the list that goes with it. The request to join may have been checked
    against settings that have changed since. -/
theorem checksum_never_stale (hash : HashFunction) :
    (∀ here chance ops m, (empty here hash chance).run ops = .done m () →
      (m.checksum = none ↔ ¬Stirred (empty here hash chance) ops) ∧
      (m.checksum = none → m.rows = []) ∧
      (∀ checksum, m.checksum = some checksum → Describes hash m.rows checksum) ∧
      ∀ here' chance' ops' m', (empty here' hash chance').run ops' = .done m' () →
        Stirred (empty here hash chance) ops → Stirred (empty here' hash chance') ops' →
        (∀ row, row ∈ m'.rows ↔ row ∈ m.rows) → m'.checksum = m.checksum) ∧
    (∀ address settings chance node acts p,
      Node.createWith hash address settings chance = .ok node →
      (Process.start node).run acts = .done p () →
      Fits hash p.node.membership.rows p.node.composePing.2.checksum ∧
      (∀ target chance,
        Fits hash p.node.membership.rows (p.node.composePingReq target chance).2.1.checksum) ∧
      ∀ checked now r n response,
        ({ p.node with settings := checked } : Node).answerJoin now r = .done n (.ok response) →
        response.membership.map Change.toMember = n.membership.rows ∧
        Fits hash n.membership.rows response.checksum) := by
  constructor
  · intro here chance ops m hrun
    obtain ⟨hnone, hempty, hdescribes⟩ := checksum_of_run hrun
    refine ⟨hnone, hempty, hdescribes, ?_⟩
    intro here' chance' ops' m' hrun' hstirred hstirred' hrows
    obtain ⟨hnone', -, hdescribes'⟩ := checksum_of_run hrun'
    obtain ⟨c, hc⟩ := Option.ne_none_iff_exists'.mp fun h => hnone.mp h hstirred
    obtain ⟨c', hc'⟩ := Option.ne_none_iff_exists'.mp fun h => hnone'.mp h hstirred'
    have hdistinct : m.Distinct := Reached.distinct ⟨here, hash, chance, ops, hrun⟩
    have hdistinct' : m'.Distinct := Reached.distinct ⟨here', hash, chance', ops', hrun'⟩
    -- one row per address, so the same rows are the same up to their order, which sorting takes away
    have hperm := perm_of_mem_rows_iff hdistinct' hdistinct hrows
    rw [hc, hc', (hdescribes' c' hc').unique (hdescribes c hc) hperm]
  · intro address settings chance node acts p hnode hrun
    -- the messages ship the checksum of a table that operations have reached
    have htable : p.node.membership.Reached :=
      Process.Reached.table ⟨hash, address, settings, chance, node, acts, hnode, hrun⟩
    have hhash : p.node.membership.hash = hash := by
      rw [(Process.here_hash_run hrun).2]
      show node.membership.hash = hash
      rw [(Node.createWith_eq hnode).2.1]
      rfl
    have hfits := htable.fits
    rw [hhash] at hfits
    refine ⟨hfits, fun _ _ => hfits, ?_⟩
    intro checked now r n response hanswer
    rw [← hhash]
    exact fits_answerJoin (n := { p.node with settings := checked }) htable hanswer

/-- Two tables hear the same of `a`, `b` and `c`, one in claims and the other in a snapshot. A node
    that has joined alone takes `b` in. -/
theorem checksum_never_stale_in_two_histories :
    ∃ m m' node p n response,
      (empty "a" hash32 .none).run
        [(7, .assert "a" .alive 1), (7, .openGate),
          (8, .update [⟨"b", .alive, 3, "b", 3, 8⟩, ⟨"c", .faulty, 4, "b", 3, 8⟩] false)] =
        .done m () ∧
      (empty "d" hash32 .none).run
        [(9, .adopt [⟨some 1, [⟨"c", .faulty, 4, "b", 3, 8⟩, ⟨"a", .alive, 1, "b", 3, 8⟩,
          ⟨"b", .alive, 3, "b", 3, 8⟩]⟩])] = .done m' () ∧
      m'.checksum = m.checksum ∧
      Node.createWith hash32 "a" { Settings.default with replicaPoints := 2 } .none = .ok node ∧
      (Process.start node).run
        [(⟨7, 0⟩, .enter 0), (⟨7, 0⟩, .announce 0), (⟨8, 1⟩, .complete 0 [])] = .done p () ∧
      ({ p.node with settings := Settings.default } : Node).answerJoin ⟨9, 2⟩
        ⟨"swimring", "b", 3⟩ = .done n (.ok response) ∧
      response.membership.map Change.toMember = n.membership.rows ∧
      Fits hash32 n.membership.rows response.checksum := by
  have hclaimed : (empty "a" hash32 .none).run
      [(7, .assert "a" .alive 1), (7, .openGate),
        (8, .update [⟨"b", .alive, 3, "b", 3, 8⟩, ⟨"c", .faulty, 4, "b", 3, 8⟩] false)] =
      .done _ () := Attempt.eq_done_of_result? (by decide +kernel)
  have hadopted : (empty "d" hash32 .none).run
      [(9, .adopt [⟨some 1, [⟨"c", .faulty, 4, "b", 3, 8⟩, ⟨"a", .alive, 1, "b", 3, 8⟩,
        ⟨"b", .alive, 3, "b", 3, 8⟩]⟩])] = .done _ () :=
    Attempt.eq_done_of_result? (by decide +kernel)
  have hnode : Node.createWith hash32 "a" { Settings.default with replicaPoints := 2 } .none =
      .ok _ := rfl
  obtain ⟨htable, hsent⟩ := checksum_never_stale hash32
  obtain ⟨hnone, -, -, hsame⟩ := htable _ _ _ _ hclaimed
  obtain ⟨hnone', -⟩ := htable _ _ _ _ hadopted
  refine ⟨_, _, _, _, _, _, hclaimed, hadopted, ?_, hnode, Attempt.eq_done_of_result? ?_, rfl, ?_⟩
  · refine hsame _ _ _ _ hadopted ?_ ?_ ?_
    · by_contra hquiet
      exact absurd (hnone.mpr hquiet) (by decide +kernel)
    · by_contra hquiet
      exact absurd (hnone'.mpr hquiet) (by decide +kernel)
    · intro row
      refine (List.isPerm_iff.mp ?_).mem_iff
      decide +kernel
  · decide +kernel
  · obtain ⟨-, -, hjoin⟩ := hsent _ _ _ _
      [(⟨7, 0⟩, .enter 0), (⟨7, 0⟩, .announce 0), (⟨8, 1⟩, .complete 0 [])] _ hnode
      (Attempt.eq_done_of_result? (by decide +kernel))
    exact hjoin Settings.default ⟨9, 2⟩ ⟨"swimring", "b", 3⟩ _ _ rfl

end Membership

end GossipRing
