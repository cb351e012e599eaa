import GossipRing.Proofs.Checksums
import Mathlib.Data.List.DropRight

/-!
# What a checksum text tells

Toward: tables with one checksum are equal, unless the hash collides. The text that is hashed writes
an address, a status and a number behind one another with nothing between them, and puts semicolons
between rows, so it has to be shown that it can be read back.

* **`Member.read?`** — reads a row from its end: a numeral, the name of a status, an address. The name
  does not end in a digit and ends no other name, so all of a row's text is read as it was written
  (`read?_checksumText`), whatever the address.
* **`Member.readAll`** — reads rows between semicolons. `readAll_joinedText`: it finds the rows whose
  texts were joined, if no address has a semicolon in it.
* **`Member.joinedText_eq_iff`**, **`Membership.checksumText_eq_iff`** — two lists of rows, or two
  tables, have one text exactly if they have the same rows.
* **`Membership.checksumText_canonical`** — the text that is hashed stands for the set of rows.
-/

namespace GossipRing

/-! ## The end of a text -/

section

variable {body digits : List Char}

/-- **A numeral is peeled off a text that does not end in a digit.** -/
theorem rdropWhile_isDigit_append (hdigits : ∀ c ∈ digits, c.isDigit)
    (hbody : ∀ c, body.getLast? = some c → ¬c.isDigit) :
    (body ++ digits).rdropWhile Char.isDigit = body := by
  have hself : body.rdropWhile Char.isDigit = body :=
    List.rdropWhile_eq_self_iff.mpr fun hne => hbody _ (List.getLast?_eq_some_getLast hne)
  rw [List.rdropWhile] at hself ⊢
  rw [List.reverse_append, List.dropWhile_append_of_pos fun c hc => hdigits c (List.mem_reverse.mp hc),
    hself]

theorem rtakeWhile_isDigit_append (hdigits : ∀ c ∈ digits, c.isDigit)
    (hbody : ∀ c, body.getLast? = some c → ¬c.isDigit) :
    (body ++ digits).rtakeWhile Char.isDigit = digits := by
  have hwhole := List.rdropWhile_append_rtakeWhile (p := Char.isDigit) (l := body ++ digits)
  rw [rdropWhile_isDigit_append hdigits hbody] at hwhole
  exact List.append_cancel_left hwhole

end

theorem isDigit_of_mem_toString {n : Nat} {c : Char} (h : c ∈ (toString n).toList) : c.isDigit := by
  have h : c ∈ (Nat.repr n).toList := h
  rw [Nat.toList_repr] at h
  exact Nat.isDigit_of_mem_toDigits (by decide) (by decide) h

namespace Status

/-- The status whose name ends a text. -/
def ending? (text : List Char) : Option Status :=
  [alive, suspect, faulty, leave, tombstone].find? fun s => s.name.toList.isSuffixOf text

/-- No name of a status ends the name of another one. -/
theorem eq_of_suffix {s t : Status} (h : s.name.toList <:+ t.name.toList) : s = t := by
  cases s <;> cases t <;> first | rfl | exact absurd h (by decide)

/-- **A name behind a text tells the status.** -/
theorem ending?_append (front : List Char) (s : Status) :
    ending? (front ++ s.name.toList) = some s := by
  have hs : s.name.toList <:+ front ++ s.name.toList := List.suffix_append _ _
  cases hfound : ending? (front ++ s.name.toList) with
  | none =>
      have hmem : s ∈ [alive, suspect, faulty, leave, tombstone] := by cases s <;> decide
      exact absurd (List.isSuffixOf_iff_suffix.mpr hs) (List.find?_eq_none.mp hfound s hmem)
  | some t =>
      have hends : t.name.toList.isSuffixOf (front ++ s.name.toList) := by
        simpa using List.find?_some hfound
      have ht := List.isSuffixOf_iff_suffix.mp hends
      -- both names end one text, so the shorter one ends the longer one
      rcases List.suffix_or_suffix_of_suffix hs ht with hst | hts
      · rw [eq_of_suffix hst]
      · rw [eq_of_suffix hts]

/-- A name has no semicolon in it and ends in a letter. -/
theorem name_shape (s : Status) :
    ';' ∉ s.name.toList ∧ ∃ c, s.name.toList.getLast? = some c ∧ ¬c.isDigit := by
  cases s <;> exact ⟨by decide, _, rfl, by decide⟩

theorem not_isDigit_of_getLast? {front : List Char} (s : Status) {c : Char}
    (h : (front ++ s.name.toList).getLast? = some c) : ¬c.isDigit := by
  obtain ⟨-, d, hd, hdigit⟩ := s.name_shape
  rw [List.getLast?_append, hd, Option.some_or] at h
  exact Option.some.inj h ▸ hdigit

end Status

/-! ## The text of one row -/

namespace Member

/-- Read a row from its end. -/
def read? (text : String) : Option Member :=
  let body := text.toList.rdropWhile Char.isDigit
  let digits := text.toList.rtakeWhile Char.isDigit
  (Status.ending? body).map fun status =>
    { address := String.ofList (body.rdrop status.name.toList.length)
      status := status
      incarnation := (Nat.ofDigitChars 10 digits 0).toUInt64 }

theorem toList_checksumText (m : Member) :
    m.checksumText.toList =
      (m.address.toList ++ m.status.name.toList) ++ (toString m.incarnation.toNat).toList := by
  rw [checksumText, String.toList_append, String.toList_append]

/-- **A row's text is read as it was written**, whatever the address is. -/
theorem read?_checksumText (m : Member) : read? m.checksumText = some m := by
  have hdigits : ∀ c ∈ (toString m.incarnation.toNat).toList, c.isDigit :=
    fun _ => isDigit_of_mem_toString
  have hbody : ∀ c, (m.address.toList ++ m.status.name.toList).getLast? = some c → ¬c.isDigit :=
    fun _ => m.status.not_isDigit_of_getLast?
  have haddress : (m.address.toList ++ m.status.name.toList).rdrop m.status.name.toList.length =
      m.address.toList := by
    rw [List.rdrop, List.length_append, Nat.add_sub_cancel, List.take_left]
  have hincarnation :
      (Nat.ofDigitChars 10 (toString m.incarnation.toNat).toList 0).toUInt64 = m.incarnation := by
    show (Nat.ofDigitChars 10 (Nat.repr m.incarnation.toNat).toList 0).toUInt64 = _
    simp
  rw [read?, toList_checksumText, rdropWhile_isDigit_append hdigits hbody,
    rtakeWhile_isDigit_append hdigits hbody, Status.ending?_append, Option.map_some,
    haddress, hincarnation, String.ofList_toList]

/-- Only an address brings a semicolon into the text of a row. -/
theorem semicolon_not_mem_checksumText {m : Member} (h : ';' ∉ m.address.toList) :
    ';' ∉ m.checksumText.toList := by
  rw [toList_checksumText, List.mem_append, List.mem_append]
  rintro ((haddress | hstatus) | hnumber)
  · exact h haddress
  · exact m.status.name_shape.1 hstatus
  · exact absurd (isDigit_of_mem_toString hnumber) (by decide)

theorem checksumText_ne_empty (m : Member) : m.checksumText ≠ "" := by
  intro hempty
  have hread := m.read?_checksumText
  rw [hempty] at hread
  cases hread

end Member

/-! ## Texts of tables -/

/-- The text can stand between semicolons and be seen. -/
def Unbroken (text : String) : Prop := text ≠ "" ∧ ';' ∉ text.toList

section

variable {texts : List String}

/-- What stands between the semicolons of joined texts. -/
theorem splitOn_intercalate (h : ∀ text ∈ texts, Unbroken text) (hne : texts ≠ []) :
    (String.intercalate ";" texts).toList.splitOn ';' = texts.map String.toList := by
  rw [String.toList_intercalate]
  refine List.splitOn_intercalate ';' ?_ (mt List.map_eq_nil_iff.mp hne)
  intro chars hchars
  obtain ⟨text, htext, rfl⟩ := List.mem_map.mp hchars
  exact (h text htext).2

theorem eq_nil_of_intercalate_eq_empty (h : ∀ text ∈ texts, Unbroken text)
    (hempty : String.intercalate ";" texts = "") : texts = [] := by
  by_contra hne
  have hpieces := splitOn_intercalate h hne
  rw [hempty] at hpieces
  obtain ⟨text, rfl, htext⟩ := List.map_eq_singleton_iff.mp hpieces.symm
  exact (h text (List.mem_singleton_self _)).1 (String.toList_eq_nil_iff.mp htext)

end

namespace Member

/-- The texts of rows, sorted and joined. -/
def joinedText (rows : List Member) : String :=
  String.intercalate ";" ((rows.map checksumText).mergeSort fun a b => decide (a ≤ b))

/-- Read rows between semicolons. -/
def readAll (text : String) : List (Option Member) :=
  if text = "" then []
  else (text.toList.splitOn ';').map fun piece => read? (String.ofList piece)

variable {rows rows' : List Member}

/-- **What was joined is read**, the rows in the order of their texts. -/
theorem readAll_joinedText (hplain : ∀ row ∈ rows, ';' ∉ row.address.toList) :
    (readAll (joinedText rows)).Perm (rows.map some) := by
  have hsorted := List.mergeSort_perm (rows.map checksumText) fun a b => decide (a ≤ b)
  rw [joinedText]
  -- which order the texts are in is of no account: each piece is read by itself
  generalize (rows.map checksumText).mergeSort (fun a b => decide (a ≤ b)) = texts at hsorted
  have hunbroken : ∀ text ∈ texts, Unbroken text := by
    intro text htext
    obtain ⟨row, hrow, rfl⟩ := List.mem_map.mp (hsorted.mem_iff.mp htext)
    exact ⟨row.checksumText_ne_empty, semicolon_not_mem_checksumText (hplain row hrow)⟩
  have hread : readAll (String.intercalate ";" texts) = texts.map read? := by
    rw [readAll]
    split
    · next hempty => rw [eq_nil_of_intercalate_eq_empty hunbroken hempty, List.map_nil]
    · next hne =>
      have htexts : texts ≠ [] := fun hnil => hne (hnil ▸ rfl)
      have hpiece : (fun piece => read? (String.ofList piece)) ∘ String.toList = read? := by
        funext text
        rw [Function.comp_apply, String.ofList_toList]
      rw [splitOn_intercalate hunbroken htexts, List.map_map, hpiece]
  have hrows : (rows.map checksumText).map read? = rows.map some := by
    rw [List.map_map, show read? ∘ checksumText = some from funext read?_checksumText]
  rw [hread, ← hrows]
  exact hsorted.map read?

/-- **Two lists of rows have one text exactly if they have the same rows**, in whatever order, unless an
    address has a semicolon in it. -/
theorem joinedText_eq_iff (hplain : ∀ row ∈ rows, ';' ∉ row.address.toList)
    (hplain' : ∀ row ∈ rows', ';' ∉ row.address.toList) :
    joinedText rows = joinedText rows' ↔ rows.Perm rows' := by
  constructor
  · intro heq
    have hread := readAll_joinedText hplain
    rw [heq] at hread
    exact (List.map_perm_map_iff (Option.some_injective _)).mp
      (hread.symm.trans (readAll_joinedText hplain'))
  · intro hperm
    rw [joinedText, joinedText, Membership.mergeSort_eq_of_perm (hperm.map checksumText)]

end Member

namespace Membership

/-- No address in the table has a semicolon in it. -/
def Plain (m : Membership) : Prop := ∀ row ∈ m.rows, ';' ∉ row.address.toList

instance (m : Membership) : Decidable m.Plain := inferInstanceAs (Decidable (∀ row ∈ m.rows, _))

/-- **Two tables have one text exactly if they have the same rows**, in whatever order. -/
theorem checksumText_eq_iff {m m' : Membership} (hm : m.Plain) (hm' : m'.Plain) :
    m.checksumText = m'.checksumText ↔ m.rows.Perm m'.rows := Member.joinedText_eq_iff hm hm'

/-- **The text that is hashed stands for the set of rows.** It is their texts, sorted by bytes and
    joined, and two tables have the same exactly if they have the same rows. It can be read back, and so
    can the text of any row. -/
theorem checksumText_canonical {m m' : Membership} (hm : m.Distinct) (hm' : m'.Distinct)
    (hplain : m.Plain) (hplain' : m'.Plain) :
    (m.checksumText = m'.checksumText ↔ ∀ row, row ∈ m.rows ↔ row ∈ m'.rows) ∧
      (∃ texts : List String, texts.Perm (m.rows.map Member.checksumText) ∧
        (texts.Pairwise fun s t => bytes s ≤ bytes t) ∧
        m.checksumText = String.intercalate ";" texts) ∧
      (Member.readAll m.checksumText).Perm (m.rows.map some) ∧
      ∀ row : Member, Member.read? row.checksumText = some row := by
  refine ⟨?_, ?_, Member.readAll_joinedText hplain, Member.read?_checksumText⟩
  · rw [checksumText_eq_iff hplain hplain']
    exact ⟨fun hperm row => hperm.mem_iff, perm_of_mem_rows_iff hm hm'⟩
  · refine ⟨_, List.mergeSort_perm _ _, ?_, rfl⟩
    exact (pairwise_mergeSort _).imp fun h => bytes_le (of_decide_eq_true h)

/-- Addresses that end in a numeral, or read like another row. -/
def lookalikes : Membership :=
  ⟨"a", [⟨"a", .alive, 12⟩, ⟨"a1", .alive, 2⟩, ⟨"aalive1", .suspect, 2⟩, ⟨"", .tombstone, 0⟩], none,
    .opened, hash32, [], .none⟩

/-- Rows that look alike have one text in either order, and it is read back. -/
theorem checksumText_canonical_of_lookalikes :
    lookalikes.checksumText =
        ({ lookalikes with rows := lookalikes.rows.reverse } : Membership).checksumText ∧
      (Member.readAll lookalikes.checksumText).Perm (lookalikes.rows.map some) := by
  have hdistinct : lookalikes.Distinct := by
    show (lookalikes.rows.map Member.address).Nodup
    decide
  have hdistinct' : Distinct { lookalikes with rows := lookalikes.rows.reverse } := by
    show (lookalikes.rows.reverse.map Member.address).Nodup
    decide
  obtain ⟨hsame, -, hread, -⟩ :=
    checksumText_canonical hdistinct hdistinct' (by decide) (by decide)
  exact ⟨hsame.mpr fun row => List.mem_reverse.symm, hread⟩

end Membership

end GossipRing
