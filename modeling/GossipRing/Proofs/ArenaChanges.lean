import GossipRing.Proofs.ArenaSteps

/-!
# Changes of a tree in an arena

Toward: an arena that is changed in place answers as a tree does that is rebuilt. The two need not be
of one shape, and have the same entries after every change.

* **`Shows.attach`** — a new red node comes in the place that its key belongs in.
* **`Arena.alloc_spec`** — its slot is one that was free, or is new.
* **`Keeps`** — the slots hold a red-black tree with the entries of a given tree, and apart from it
  only the sentinel and the free slots.
* **`Keeps.step`** — a change of the arena has a result, gives the answer that the given tree gives,
  and keeps them together.
-/

namespace GossipRing.RedBlack

variable {α : Type}

open RedBlack.Tree

/-! ## Entries in order -/

section

variable {s : Tree α} {key : UInt32} {value : α} {xs ys : List (UInt32 × α)}

theorem Ascending.insert_between (h : Ascending (xs ++ ys)) (hxs : ∀ e ∈ xs, e.1 < key)
    (hys : ∀ e ∈ ys, key < e.1) (value : α) : Ascending (xs ++ (key, value) :: ys) := by
  obtain ⟨hx, hy, hcross⟩ := List.pairwise_append.mp h
  refine List.pairwise_append.mpr ⟨hx, List.pairwise_cons.mpr ⟨hys, hy⟩, ?_⟩
  intro e he e' he'
  rcases List.mem_cons.mp he' with rfl | he'
  · exact hxs e he
  · exact hcross e he e' he'

/-- An insertion between these entries and those. -/
theorem toList_insert_between (h : Ordered s) (hlist : s.toList = xs ++ ys)
    (hxs : ∀ e ∈ xs, e.1 < key) (hys : ∀ e ∈ ys, key < e.1) (hfree : s.get? key = none) (value : α) :
    (s.insert key value).toList = xs ++ (key, value) :: ys := by
  have hascending : Ascending (xs ++ ys) := hlist ▸ h
  refine Ascending.eq_of_mem_iff (h.insert key value) (hascending.insert_between hxs hys value) ?_
  intro e
  rw [Tree.insert, toList_paint, mem_toList_insertBelow, hlist]
  simp only [List.mem_append, List.mem_cons, hfree]
  tauto

/-- A removal from between these entries and those. -/
theorem toList_erase_between (h : Ordered s) (hlist : s.toList = xs ++ (key, value) :: ys) :
    (s.erase key).toList = xs ++ ys := by
  have hascending : Ascending (xs ++ (key, value) :: ys) := hlist ▸ h
  obtain ⟨-, hys, hxs⟩ := List.pairwise_append.mp hascending
  rw [toList_erase h, hlist, List.filter_append, List.filter_cons_of_neg (by simp)]
  congr 1
  · refine filter_key_ne_self fun e he => ?_
    exact UInt32.ne_of_lt (hxs e he (key, value) List.mem_cons_self)
  · refine filter_key_ne_self fun e he => ?_
    exact (UInt32.ne_of_lt ((List.pairwise_cons.mp hys).1 e he)).symm

end

/-! ## New slots and free ones -/

/-- The cells of the slots that are free. -/
def spare (free : List ℕ) : Multiset (ℕ × Slot α) :=
  (free.map fun i => (i, Slot.sentinel) : List (ℕ × Slot α))

@[simp] theorem spare_nil : (spare [] : Multiset (ℕ × Slot α)) = 0 := rfl

theorem spare_cons (i : ℕ) (free : List ℕ) :
    (spare (i :: free) : Multiset (ℕ × Slot α)) = {(i, .sentinel)} + spare free := rfl

/-- **A slot for a new entry** is taken from the free ones, or stands behind all others. -/
theorem Arena.alloc_spec {a : Arena α} {cells : Multiset (ℕ × Slot α)}
    (h : Holds a.slots (cells + spare a.free)) (key : UInt32) (value : α) (parent : ℕ) :
    ∃ a' z, a.alloc key value parent = some (a', z) ∧
      Holds a'.slots (cells + ({(z, ⟨key, some value, .red, 0, 0, parent⟩)} + spare a'.free)) ∧
      a'.root = a.root ∧ a'.size = a.size := by
  cases hfree : a.free with
  | nil =>
      rw [hfree] at h
      refine ⟨{ a with slots := a.slots.push ⟨key, some value, .red, 0, 0, parent⟩ }, a.slots.size,
        by simp [alloc, hfree], (h.push _).congr ?_, rfl, rfl⟩
      rw [hfree]
      abel
  | cons i free =>
      rw [hfree, spare_cons] at h
      obtain ⟨links, hstep, h', hroot⟩ := (h.congr (show cells + ({(i, .sentinel)} + spare free) =
        {(i, .sentinel)} + (cells + spare free) by abel)).update
          fun _ => ⟨key, some value, .red, 0, 0, parent⟩
      refine ⟨{ a with toLinks := links, free := free }, i, ?_, h'.congr (by abel), hroot, rfl⟩
      simp [alloc, hfree, hstep]

variable {a : Links α} {q n : ℕ} {frames : List (Frame α)} {t : Tree (ℕ × α)}
  {other : Multiset (ℕ × Slot α)} {key : UInt32}

/-- **A new node comes in the open place**, if its key belongs there and its slot says so. -/
theorem Shows.attach {z : ℕ} {value : α}
    (h : Shows a q (plug frames leaf)
      ({(z, ⟨key, some value, .red, 0, 0, above frames⟩)} + other)) (hbetween : Between key frames) :
    ∃ a', a.attach key (above frames) z = some a' ∧
      Shows a' q (plug frames (node .red leaf key (z, value) leaf)) other := by
  obtain ⟨hcells, hroot⟩ := plug_iff.mp h
  rw [cells_leaf, number_leaf] at hcells
  cases frames with
  | nil =>
      refine ⟨{ a with root := z }, rfl, plug_iff.mpr ⟨hcells.congr ?_, rfl⟩⟩
      simp only [around, Tree.cells, number, above]
      abel
  | cons f frames =>
      have hne : f.entry.1 ≠ 0 := (hcells.congr (add_assoc _ _ _)).ne_zero (by simp [around])
      have hread := (show Shows a q (plug frames (f.fill leaf)) _ from h).read
      have hparts : Holds a.slots
          ({(f.entry.1, .link f.side f.key f.entry.2 f.color 0 f.other.number (above frames))} +
            ({(0, .nil q)} + f.other.cells f.entry.1 + around f.entry.1 frames +
              ({(z, ⟨key, some value, .red, 0, 0, f.entry.1⟩)} + other))) :=
        hcells.congr (by rw [around, above]; abel)
      obtain ⟨a', hstep, h', hroot'⟩ := hparts.setChild z
      refine ⟨a', ?_, plug_iff.mpr ⟨h'.congr ?_, hroot'.trans hroot⟩⟩
      · rw [Links.attach, above, if_neg hne]
        -- the key is on the side of the parent that is open
        cases hside : f.side with
        | left =>
            have hlt : key < f.key := hbetween.2 (f.key, f.entry) (by simp [after, hside])
            rw [hside] at hstep
            simp [hread, hlt, hstep]
        | right =>
            have hgt : f.key < key := hbetween.1 (f.key, f.entry) (by simp [before, hside])
            rw [hside] at hstep
            simp [hread, UInt32.lt_asymm hgt, hstep]
      · simp only [around, Tree.cells, number, above]
        abel

/-- The slot of a cell outside the tree is emptied. -/
theorem Shows.release {i : ℕ} {slot : Slot α} (h : Shows a q t ({(i, slot)} + other)) :
    ∃ a', a.update i (fun _ => .sentinel) = some a' ∧ Shows a' q t ({(i, .sentinel)} + other) := by
  have hparts : Holds a.slots ({(i, slot)} + ({(0, .nil q)} + t.cells 0 + other)) :=
    h.cells.congr (by abel)
  obtain ⟨a', hstep, h', hroot⟩ := hparts.update fun _ => .sentinel
  exact ⟨a', hstep, h'.congr (by abel), hroot.trans h.root⟩

/-- The sentinel is put right. -/
theorem Shows.reset (h : Shows a q t other) :
    ∃ a₁ a₂, a.setParent 0 0 = some a₁ ∧ a₁.paint 0 .black = some a₂ ∧ Shows a₂ 0 t other := by
  obtain ⟨a₁, hstep₁, h₁, hroot₁⟩ := (h.cells.congr (add_assoc _ _ _)).update
    fun slot => { slot with parent := 0 }
  obtain ⟨a₂, hstep₂, h₂, hroot₂⟩ := h₁.update fun slot => { slot with color := .black }
  exact ⟨a₁, a₂, hstep₁, hstep₂, h₂.congr (add_assoc _ _ _).symm,
    hroot₂.trans (hroot₁.trans h.root)⟩

/-! ## What an arena keeps -/

/-- An entry without the number of its slot. -/
def plain (e : UInt32 × ℕ × α) : UInt32 × α := (e.1, e.2.2)

/-- The arena keeps the entries of `s`, in a red-black tree `t`. The sentinel is as it was at first, and
    every other slot is free and empty. -/
structure Keeps (a : Arena α) (t : Tree (ℕ × α)) (s : Tree α) : Prop where
  shown : Shows a.toLinks 0 t (spare a.free)
  sound : t.Sound
  ordered : Ordered s
  entries : t.toList.map plain = s.toList
  size : a.size = s.size

/-- The entries are in one order with their numbers and without. -/
theorem ordered_of_map_plain {t : Tree (ℕ × α)} {s : Tree α} (h : t.toList.map plain = s.toList)
    (hs : Ordered s) : Ordered t := by
  rw [Ordered, ← h, Ascending] at hs
  exact (List.pairwise_map (f := plain)).mp hs

theorem Between.map_plain (h : Between key frames) :
    (∀ e ∈ (before frames).map plain, e.1 < key) ∧ ∀ e ∈ (after frames).map plain, key < e.1 :=
  ⟨List.forall_mem_map.mpr h.1, List.forall_mem_map.mpr h.2⟩

theorem keeps_empty : Keeps (Arena.empty : Arena α) leaf leaf where
  shown := by
    refine ⟨⟨by simp [Arena.empty], ?_⟩, rfl⟩
    intro i slot
    cases i with
    | zero => simp [Arena.empty, Slot.nil, Slot.sentinel, eq_comm]
    | succ i => simp [Arena.empty]
  sound := sound_leaf
  ordered := ordered_leaf
  entries := rfl
  size := rfl

namespace Keeps

variable {a : Arena α} {s : Tree α} {value : α}

/-- Another tree that finds the same is kept as well. -/
theorem congr {s' : Tree α} (h : Keeps a t s) (hs' : Ordered s')
    (hget : ∀ key, s'.get? key = s.get? key) : Keeps a t s' := by
  have hlist : s'.toList = s.toList := toList_eq_of_get?_eq hs' h.ordered hget
  refine ⟨h.shown, h.sound, hs', h.entries.trans hlist.symm, ?_⟩
  rw [h.size, ← length_toList, ← length_toList, hlist]

/-- **A search** finds what the given tree finds, or the place of the key. -/
theorem seek (h : Keeps a t s) (key : UInt32) :
    ∃ frames u, a.seek key = some (above frames, u.number) ∧ plug frames u = t ∧
      (u = leaf ∧ Between key frames ∧ s.get? key = none ∨
        ∃ c l e r, u = node c l key e r ∧ s.get? key = some e.2) := by
  have hordered := ordered_of_map_plain h.entries h.ordered
  obtain ⟨frames, u, hseek, hplug, hend⟩ := h.shown.seek hordered key
  refine ⟨frames, u, hseek, hplug, ?_⟩
  have hentries := h.entries
  rw [← hplug, toList_plug] at hentries
  rcases hend with ⟨rfl, hbetween⟩ | ⟨c, l, e, r, rfl⟩
  · refine Or.inl ⟨rfl, hbetween, Option.eq_none_iff_forall_ne_some.mpr fun v hget => ?_⟩
    have hmem := (get?_eq_some_iff h.ordered key v).mp hget
    rw [← hentries, toList_leaf, List.append_nil] at hmem
    obtain ⟨e, he, heq⟩ := List.mem_map.mp hmem
    obtain rfl : e.1 = key := congrArg Prod.fst heq
    rcases List.mem_append.mp he with he | he
    · exact UInt32.lt_irrefl _ (hbetween.1 e he)
    · exact UInt32.lt_irrefl _ (hbetween.2 e he)
  · refine Or.inr ⟨c, l, e, r, rfl, (get?_eq_some_iff h.ordered key e.2).mpr ?_⟩
    rw [← hentries]
    simp [plain]

theorem find (h : Keeps a t s) (key : UInt32) :
    ∃ frames u, a.find key = some u.number ∧ plug frames u = t ∧
      (u = leaf ∧ s.get? key = none ∨ ∃ c l e r, u = node c l key e r ∧ s.get? key = some e.2) := by
  obtain ⟨frames, u, hseek, hplug, hend⟩ := h.seek key
  refine ⟨frames, u, by simp [Links.find, hseek], hplug, ?_⟩
  exact hend.imp_left fun hleaf => ⟨hleaf.1, hleaf.2.2⟩

/-- **A look-up** gives the value of the given tree. -/
theorem get? (h : Keeps a t s) (key : UInt32) : a.get? key = some (s.get? key) := by
  obtain ⟨frames, u, hfind, rfl, hend⟩ := h.find key
  rcases hend with ⟨rfl, hget⟩ | ⟨c, l, e, r, rfl, hget⟩
  · simp [Links.get?, hfind, h.shown.read_nil, hget, Slot.nil, Slot.sentinel]
  · simp [Links.get?, hfind, number, h.shown.read_node, hget]

/-- An insertion at a key that is there is refused, and changes nothing. -/
theorem insert_refused (h : Keeps a t s) {key : UInt32} (hc : s.contains key = true) (value : α) :
    a.insert key value = some (a, false) := by
  obtain ⟨frames, u, hseek, rfl, hend⟩ := h.seek key
  rcases hend with ⟨-, -, hget⟩ | ⟨c, l, e, r, rfl, -⟩
  · rw [contains, hget] at hc
    exact absurd hc Bool.false_ne_true
  · have hne : e.1 ≠ 0 := h.shown.number_ne_zero node_ne_leaf
    rw [number] at hseek
    simp [Arena.insert, hseek, hne]

/-- A removal at a key that is not there is refused, and changes nothing. -/
theorem remove_refused (h : Keeps a t s) {key : UInt32} (hc : s.contains key = false) :
    a.remove key = some (a, false) := by
  obtain ⟨frames, u, hfind, rfl, hend⟩ := h.find key
  rcases hend with ⟨rfl, -⟩ | ⟨c, l, e, r, -, hget⟩
  · simp [Arena.remove, hfind]
  · rw [contains, hget] at hc
    exact absurd hc.symm Bool.false_ne_true

/-- **An insertion** has a result, that of the given tree. -/
theorem insert (h : Keeps a t s) (key : UInt32) (value : α) :
    ∃ a' t', a.insert key value = some (a', (s.add key value).2) ∧
      Keeps a' t' (s.add key value).1 := by
  obtain ⟨frames, u, hseek, rfl, hend⟩ := h.seek key
  rcases hend with ⟨rfl, hbetween, hget⟩ | ⟨c, l, e, r, rfl, hget⟩
  · have hadd : s.add key value = (s.insert key value, true) := by simp [add, contains, hget]
    obtain ⟨a₁, z, hstep₁, h₁, hroot, hsize⟩ := Arena.alloc_spec h.shown.cells key value (above frames)
    obtain ⟨links, hstep₂, h₂⟩ := (Shows.mk h₁ (hroot.trans h.shown.root)).attach hbetween
    obtain ⟨m, hm, hroom, -⟩ := h.sound.room
    -- the new node is red and has no children, so all that can be wrong is its parent's colour
    obtain ⟨links', t', hstep₃, h₃, hsound, htoList⟩ := h₂.mendRed rfl (.red hm hm rfl rfl) hroom
    have hentries := h.entries
    rw [toList_plug, toList_leaf, List.append_nil, List.map_append] at hentries
    -- mending moves nodes about but no entries, so the list tells what has become of the map
    have hlist := toList_insert_between h.ordered hentries.symm hbetween.map_plain.1
      hbetween.map_plain.2 hget value
    refine ⟨{ a₁ with toLinks := links', size := a₁.size + 1 }, t', ?_, ?_⟩
    · rw [number] at hstep₃
      simp [Arena.insert, hseek, hstep₁, hstep₂, hstep₃, hadd]
    · rw [hadd]
      refine ⟨h₃, hsound, h.ordered.insert key value, ?_, ?_⟩
      · rw [htoList, toList_plug, hlist]
        simp [plain]
      · show a₁.size + 1 = _
        rw [hsize, h.size, ← length_toList, ← length_toList, hlist, ← hentries]
        simp only [List.length_append, List.length_cons]
        omega
  · have hc : s.contains key = true := by simp [contains, hget]
    have hadd : s.add key value = (s, false) := by simp [add, hc]
    rw [hadd]
    exact ⟨a, _, h.insert_refused hc value, h⟩

/-- **A removal** has a result, that of the given tree. -/
theorem remove (h : Keeps a t s) (key : UInt32) :
    ∃ a' t', a.remove key = some (a', (s.remove key).2) ∧ Keeps a' t' (s.remove key).1 := by
  obtain ⟨frames, u, hfind, rfl, hend⟩ := h.find key
  rcases hend with ⟨rfl, hget⟩ | ⟨c, l, e, r, rfl, hget⟩
  · have hc : s.contains key = false := by simp [contains, hget]
    have hremove : s.remove key = (s, false) := by simp [Tree.remove, hc]
    rw [hremove]
    exact ⟨a, _, h.remove_refused hc, h⟩
  · have hremove : s.remove key = (s.erase key, true) := by simp [Tree.remove, contains, hget]
    have hne : e.1 ≠ 0 := h.shown.number_ne_zero node_ne_leaf
    -- the node is cut out and the tree mended; its slot then joins the free list, wiped
    obtain ⟨links, q, slot, t', hstep₁, h₁, hsound, htoList⟩ := h.shown.cut h.sound
    obtain ⟨links', hstep₂, h₂⟩ := h₁.release
    obtain ⟨links₃, links₄, hstep₃, hstep₄, h₄⟩ := h₂.reset
    have hentries := h.entries
    rw [toList_plug, toList_node] at hentries
    have hold : s.toList = (before frames ++ l.toList).map plain ++ (key, e.2) ::
        (r.toList ++ after frames).map plain := by
      rw [← hentries]
      simp [plain]
    have hlist := toList_erase_between h.ordered hold
    refine ⟨{ toLinks := links₄, free := e.1 :: a.free, size := a.size - 1 }, t', ?_, ?_⟩
    · rw [number] at hfind
      simp [Arena.remove, Arena.release, hfind, hne, hstep₁, hstep₂, hstep₃, hstep₄, hremove]
    · rw [hremove]
      refine ⟨h₄, hsound, h.ordered.erase key, ?_, ?_⟩
      · rw [htoList, hlist]
        simp
      · show a.size - 1 = _
        rw [h.size, ← length_toList, ← length_toList, hlist, hold]
        simp only [List.length_append, List.length_cons]
        omega

end Keeps

/-! ## Runs of changes -/

/-- The change in an arena, and whether anything changed. -/
def Edit.onArena (a : Arena α) : Edit α → Option (Arena α × Bool)
  | insert key value => a.insert key value
  | remove key => a.remove key

/-- Changes in order by a step that may have no result, and the answer to each. -/
def Edit.tryRun {σ : Type} (step : σ → Edit α → Option (σ × Bool)) (s : σ) :
    List (Edit α) → Option (σ × List Bool)
  | [] => some (s, [])
  | edit :: rest => do
    let (s, answer) ← step s edit
    let (s, answers) ← tryRun step s rest
    some (s, answer :: answers)

/-- A run goes on with another. -/
theorem Edit.tryRun_append {σ : Type} {step : σ → Edit α → Option (σ × Bool)} {s s₁ s₂ : σ}
    {edits edits' : List (Edit α)} {answers answers' : List Bool}
    (h : tryRun step s edits = some (s₁, answers))
    (h' : tryRun step s₁ edits' = some (s₂, answers')) :
    tryRun step s (edits ++ edits') = some (s₂, answers ++ answers') := by
  induction edits generalizing s answers with
  | nil =>
      obtain ⟨rfl, rfl⟩ := Prod.mk.inj (Option.some.inj h)
      exact h'
  | cons edit rest ih =>
      simp only [tryRun, Option.bind_eq_bind, Option.bind_eq_some_iff] at h
      obtain ⟨⟨s', answer⟩, hstep, ⟨s'', rest'⟩, hrest, heq⟩ := h
      obtain ⟨rfl, rfl⟩ := Prod.mk.inj (Option.some.inj heq)
      simp [tryRun, hstep, ih hrest]

namespace Keeps

variable {a : Arena α} {s : Tree α}

/-- **One change** has a result, that of the given tree. -/
theorem step (h : Keeps a t s) (edit : Edit α) :
    ∃ a' t', edit.onArena a = some (a', (edit.onTree s).2) ∧ Keeps a' t' (edit.onTree s).1 := by
  cases edit with
  | insert key value => exact h.insert key value
  | remove key => exact h.remove key

/-- **A run of changes** has a result, that of the given tree. -/
theorem run (h : Keeps a t s) (edits : List (Edit α)) :
    ∃ a' t', Edit.tryRun Edit.onArena a edits = some (a', (Edit.run Edit.onTree s edits).2) ∧
      Keeps a' t' (Edit.run Edit.onTree s edits).1 := by
  induction edits generalizing a t s with
  | nil => exact ⟨a, t, rfl, h⟩
  | cons edit rest ih =>
      obtain ⟨a₁, t₁, hstep, h₁⟩ := h.step edit
      obtain ⟨a₂, t₂, hrest, h₂⟩ := ih h₁
      refine ⟨a₂, t₂, ?_, h₂⟩
      simp [Edit.tryRun, hstep, hrest, Edit.run]

end Keeps

end GossipRing.RedBlack
