import GossipRing.Proofs.ArenaRefinement
import GossipRing.Proofs.Walks

/-!
# A hash ring over an arena

Toward: the positions of a ring may stand in an arena. An arena that is changed along with the ring
keeps its positions, and look-ups that read the arena by its cursors have the results of those that
read the tree.

* **`KeptIn`** — an arena keeps the positions of a ring. Placing and withdrawing a server are runs of
  changes of the arena (`KeptIn.place`, `KeptIn.withdraw`).
* **`InStep`** — a cursor in the arena and one in the tree that are answered the same at every call.
* **`ownerIn`** — the look-up of one server. **`WalkedIn`** — the walk of a look-up of several.
* **`exists_arena`** — after every history an arena keeps the positions, and both look-ups have their
  results in it.
-/

namespace GossipRing.Ring

open RedBlack

/-! ## The positions -/

/-- The arena keeps the positions of the ring. -/
def KeptIn (r : Ring) (a : Arena String) : Prop := ∃ t, Keeps a t r.positions

variable {r r' : Ring} {a : Arena String} {t : RedBlack.Tree (ℕ × String)}
  {positions : RedBlack.Tree String} {s : String}

/-- Points that are taken in the tree are taken in the arena. -/
theorem keeps_take (h : Keeps a t positions) (s : String) (ps : List UInt32) :
    ∃ a' t' answers, Edit.tryRun Edit.onArena a (ps.map (.insert · s)) = some (a', answers) ∧
      Keeps a' t' (ps.foldl (fun t p => t.insert p s) positions) := by
  induction ps generalizing a t positions with
  | nil => exact ⟨a, t, [], rfl, h⟩
  | cons p rest ih =>
      obtain ⟨a₁, t₁, hinsert, h₁⟩ := h.insert p s
      have hnext : Keeps a₁ t₁ (positions.insert p s) :=
        h₁.congr (h.ordered.insert p s) fun q => Tree.get?_add h.ordered p s q
      obtain ⟨a₂, t₂, answers, hrun, h₂⟩ := ih hnext
      refine ⟨a₂, t₂, (positions.add p s).2 :: answers, ?_, h₂⟩
      simp [Edit.tryRun, Edit.onArena, hinsert, hrun]

/-- Points that are given up in the tree are given up in the arena. -/
theorem keeps_giveUp (h : Keeps a t positions) (ps : List UInt32) :
    ∃ a' t' answers, Edit.tryRun Edit.onArena a (ps.map .remove) = some (a', answers) ∧
      Keeps a' t' (ps.foldl (fun t p => t.erase p) positions) := by
  induction ps generalizing a t positions with
  | nil => exact ⟨a, t, [], rfl, h⟩
  | cons p rest ih =>
      obtain ⟨a₁, t₁, hremove, h₁⟩ := h.remove p
      have hnext : Keeps a₁ t₁ (positions.erase p) :=
        h₁.congr (h.ordered.erase p) fun q => Tree.get?_remove h.ordered p q
      obtain ⟨a₂, t₂, answers, hrun, h₂⟩ := ih hnext
      refine ⟨a₂, t₂, (positions.remove p).2 :: answers, ?_, h₂⟩
      simp [Edit.tryRun, Edit.onArena, hremove, hrun]

namespace KeptIn

/-- A server is placed: the arena takes its points, one insertion after another. -/
theorem place (h : r.KeptIn a) (hp : r.place s = some r') :
    ∃ a' answers, Edit.tryRun Edit.onArena a ((r.points s).map (.insert · s)) = some (a', answers) ∧
      r'.KeptIn a' := by
  obtain ⟨t, h⟩ := h
  obtain ⟨-, rfl⟩ := place_eq_some hp
  obtain ⟨a', t', answers, hrun, h'⟩ := keeps_take h s (r.points s)
  exact ⟨a', answers, hrun, t', h'⟩

/-- A server is withdrawn: the arena gives up its points. -/
theorem withdraw (h : r.KeptIn a) (hw : r.withdraw s = some r') :
    ∃ a' answers, Edit.tryRun Edit.onArena a ((r.points s).map .remove) = some (a', answers) ∧
      r'.KeptIn a' := by
  obtain ⟨t, h⟩ := h
  obtain ⟨-, rfl⟩ := withdraw_eq_some hw
  obtain ⟨a', t', answers, hrun, h'⟩ := keeps_giveUp h (r.points s)
  exact ⟨a', answers, hrun, t', h'⟩

end KeptIn

/-! ## Cursors in step -/

/-- The two cursors have the same entries before them. -/
def InStep (a : Arena String) (i : ℕ) (c : Cursor String) : Prop := a.Yields i c.toList

namespace InStep

variable {i : ℕ} {c : Cursor String}

theorem next (h : InStep a i c) : ∃ j, a.next i = some (c.next.1, j) ∧ InStep a j c.next.2 := by
  obtain ⟨j, hnext, hrest⟩ := Links.Yields.next h
  rw [← Cursor.next_fst] at hnext
  rw [← Cursor.toList_next] at hrest
  exact ⟨j, hnext, hrest⟩

theorem key? (h : InStep a i c) : a.key? i = some c.key? := by
  rw [Links.Yields.key? h, key?_eq_head?]

theorem value? (h : InStep a i c) : a.value? i = some c.value? := by
  rw [Links.Yields.value? h, Cursor.value?_eq_head?]

end InStep

namespace KeptIn

theorem start (h : r.KeptIn a) : ∃ i, a.start = some i ∧ InStep a i r.positions.start := by
  obtain ⟨t, h⟩ := h
  obtain ⟨i, hstart, hi⟩ := h.start
  rw [← Tree.toList_start] at hi
  exact ⟨i, hstart, hi⟩

theorem upperBound (h : r.KeptIn a) (position : UInt32) :
    ∃ i, a.upperBound position = some i ∧ InStep a i (r.positions.upperBound position) := by
  obtain ⟨t, h⟩ := h
  obtain ⟨i, hupper, hi⟩ := h.upperBound position
  rw [← Tree.toList_upperBound h.ordered] at hi
  exact ⟨i, hupper, hi⟩

end KeptIn

/-! ## Look-ups -/

/-- The owner of the first position above this one, or else of the smallest, read from an arena. -/
def ownerIn (a : Arena String) (position : UInt32) : Option (Option String) := do
  match ← a.value? (← a.upperBound position) with
  | some server => some (some server)
  | none => some ((← a.min?).map Prod.snd)

/-- **The look-up of one server** has its result in the arena. -/
theorem KeptIn.owner (h : r.KeptIn a) (key : String) :
    ownerIn a (r.hash key) = some (r.lookup key) := by
  obtain ⟨i, hupper, hstep⟩ := h.upperBound (r.hash key)
  have hvalue := hstep.value?
  obtain ⟨t, hkeeps⟩ := h
  have hmin := hkeeps.min?
  rw [← Tree.min?_eq_head?] at hmin
  rw [ownerIn, lookup]
  cases hfound : (r.positions.upperBound (r.hash key)).value? with
  | none => simp [hupper, hvalue, hfound, hmin]
  | some server => simp [hupper, hvalue, hfound]

/-- One turn of a walk in an arena that came in at `start`, stands at `i` and has found some servers. -/
def turnIn (a : Arena String) (n : ℕ) (start : UInt32) (i : ℕ) (found : List String) :
    Option (ℕ × List String × Bool) := do
  match ← a.next i with
  | (some (_, server), j) =>
    let back := (← a.key? j) == some start
    if found.contains server then some (j, found, back)
    else some (j, found ++ [server], (found ++ [server]).length == n || back)
  | (none, _) =>
    let j ← a.start
    some (j, found, (← a.key? j) == some start)

/-- A walk in an arena ends, and has found these servers then. -/
inductive EndsIn (a : Arena String) (n : ℕ) (start : UInt32) : ℕ → List String → List String → Prop where
  | ended {i j found result} (h : turnIn a n start i found = some (j, result, true)) :
      EndsIn a n start i found result
  | onward {i j found found' result} (h : turnIn a n start i found = some (j, found', false))
      (hrest : EndsIn a n start j found' result) : EndsIn a n start i found result

/-- Where a look-up comes in. -/
def entranceIn (a : Arena String) (position : UInt32) : Option ℕ := do
  let i ← a.upperBound position
  if (← a.key? i).isNone then a.start else some i

/-- The look-up of `n` servers comes to this result in an arena. `n` is no more than are declared. -/
inductive WalkedIn (a : Arena String) (position : UInt32) (n : ℕ) : List String → Prop where
  | nobody (hn : n = 0) : WalkedIn a position n []
  | deserted {i : ℕ} (hn : n ≠ 0) (hin : entranceIn a position = some i)
      (hnone : a.key? i = some none) : WalkedIn a position n []
  | around {i : ℕ} {start : UInt32} {result : List String} (hn : n ≠ 0)
      (hin : entranceIn a position = some i) (hstart : a.key? i = some (some start))
      (hends : EndsIn a n start i [] result) : WalkedIn a position n result

namespace KeptIn

variable {n : ℕ} {start : UInt32}

/-- One turn in the arena is one in the tree. -/
theorem turn (h : r.KeptIn a) {w w' : Walker} {ended : Bool} {i : ℕ} (hstep : InStep a i w.cursor)
    (hturn : w.turn r.positions n start = (w', ended)) :
    ∃ j, turnIn a n start i w.found = some (j, w'.found, ended) ∧ InStep a j w'.cursor := by
  obtain ⟨j, hnext, hj⟩ := hstep.next
  have hkey := hj.key?
  rw [Walker.turn] at hturn
  split at hturn
  · next _ server cursor hcursor =>
    rw [hcursor] at hnext hj hkey
    split at hturn
    · next hseen =>
      obtain ⟨rfl, rfl⟩ := Prod.mk.inj hturn
      refine ⟨j, ?_, hj⟩
      simp only [turnIn, hnext, hkey, Option.bind_eq_bind, Option.bind_some, if_pos hseen]
    · next hseen =>
      obtain ⟨rfl, rfl⟩ := Prod.mk.inj hturn
      refine ⟨j, ?_, hj⟩
      simp only [turnIn, hnext, hkey, Option.bind_eq_bind, Option.bind_some, if_neg hseen]
  · next _ cursor hcursor =>
    obtain ⟨first, hstart, hfirst⟩ := h.start
    rw [hcursor] at hnext
    obtain ⟨rfl, rfl⟩ := Prod.mk.inj hturn
    refine ⟨first, ?_, hfirst⟩
    simp only [turnIn, hnext, hstart, hfirst.key?, Option.bind_eq_bind, Option.bind_some]

/-- A walk that ends in the tree ends in the arena, with the same servers. -/
theorem ends (h : r.KeptIn a) {w : Walker} {result : List String}
    (hends : Ends r.positions n start w result) {i : ℕ} (hstep : InStep a i w.cursor) :
    EndsIn a n start i w.found result := by
  induction hends generalizing i with
  | ended hturn =>
      obtain ⟨j, hturn', -⟩ := h.turn hstep hturn
      exact .ended hturn'
  | onward hturn _ ih =>
      obtain ⟨j, hturn', hstep'⟩ := h.turn hstep hturn
      exact .onward hturn' (ih hstep')

theorem entrance (h : r.KeptIn a) (key : String) :
    ∃ i, entranceIn a (r.hash key) = some i ∧ InStep a i (r.entrance key) := by
  obtain ⟨i, hupper, hi⟩ := h.upperBound (r.hash key)
  have hkey := hi.key?
  rw [Ring.entrance]
  split
  · next hnone =>
    obtain ⟨first, hstart, hfirst⟩ := h.start
    refine ⟨first, ?_, hfirst⟩
    rw [entranceIn, hupper]
    simp only [Option.bind_eq_bind, Option.bind_some, hkey, if_pos hnone, hstart]
  · next hsome =>
    refine ⟨i, ?_, hi⟩
    rw [entranceIn, hupper]
    simp only [Option.bind_eq_bind, Option.bind_some, hkey, if_neg hsome]

/-- **The walk of a look-up** ends in the arena with the servers that the look-up answers with. -/
theorem walk (h : r.KeptIn a) (hsound : Sound r) (key : String) (n : ℕ) :
    WalkedIn a (r.hash key) (min n r.servers.length) (r.lookupMany key n) := by
  obtain ⟨i, hin, hstep⟩ := h.entrance key
  have hkey := hstep.key?
  generalize hresult : r.lookupMany key n = result
  have hwalked : Walked r key n result := (walked_iff hsound key n result).mpr hresult.symm
  cases hwalked with
  | nobody hn => exact .nobody hn
  | deserted hn hnone => exact .deserted hn hin (by rw [hkey, hnone])
  | around hn hstart hends => exact .around hn hin (by rw [hkey, hstart]) (h.ends hends hstep)

end KeptIn

/-! ## Histories -/

/-- Some run of changes on the empty arena leads to one that keeps the positions of the ring. -/
def HasArena (r : Ring) : Prop :=
  ∃ edits a answers, Edit.tryRun Edit.onArena Arena.empty edits = some (a, answers) ∧ r.KeptIn a

/-- Every history of a ring is a run of changes. -/
theorem hasArena_run (replicas : ℕ) (hash : HashFunction) (ops : List Op) :
    HasArena ((empty replicas hash).run ops) := by
  have hempty : HasArena (empty replicas hash) := ⟨[], Arena.empty, [], rfl, .leaf, keeps_empty⟩
  refine run_induction (P := HasArena) (N := Set.univ) ?_ ?_ ?_ (fun _ _ _ _ => Set.mem_univ _) hempty
  · rintro r s r' - ⟨edits, a, answers, hrun, hkept⟩ hp
    obtain ⟨a', answers', hrun', hkept'⟩ := hkept.place hp
    exact ⟨_, a', _, Edit.tryRun_append hrun hrun', hkept'⟩
  · rintro r s r' - ⟨edits, a, answers, hrun, hkept⟩ hw
    obtain ⟨a', answers', hrun', hkept'⟩ := hkept.withdraw hw
    exact ⟨_, a', _, Edit.tryRun_append hrun hrun', hkept'⟩
  · rintro r checksum events ⟨edits, a, answers, hrun, t, hkeeps⟩
    exact ⟨edits, a, answers, hrun, t, hkeeps⟩

/-- **A ring may stand over an arena.** After every history there is a run of changes on the empty arena
    that has a result and keeps the positions of the ring. There the look-ups of one server and of
    several, which read the arena cursor by cursor, have the results that the ring gives. -/
theorem exists_arena (replicas : ℕ) (hash : HashFunction) (ops : List Op) :
    let r := (empty replicas hash).run ops
    ∃ edits a answers, Edit.tryRun Edit.onArena Arena.empty edits = some (a, answers) ∧ r.KeptIn a ∧
      (∀ key, ownerIn a (r.hash key) = some (r.lookup key)) ∧
      ∀ key n, WalkedIn a (r.hash key) (min n r.servers.length) (r.lookupMany key n) := by
  intro r
  have hsound : Sound r := (Sound.empty replicas hash).run ops
  obtain ⟨edits, a, answers, hrun, hkept⟩ := hasArena_run replicas hash ops
  exact ⟨edits, a, answers, hrun, hkept, hkept.owner, fun key n => hkept.walk hsound key n⟩

end GossipRing.Ring
