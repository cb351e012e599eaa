import GossipRing.Proofs.OrderedTree
import GossipRing.Ring
import Mathlib.Data.Finset.Basic
import Mathlib.Data.Finset.Dedup
import Mathlib.Data.String.Basic

/-!
# Runs of a hash ring

Toward: what is true of a ring after any history of additions and removals, whatever the hash.

A history is a list of `Op`s. Every operation comes down to placing and withdrawing single servers
and to writing the log, so a fact is true after every run when these three keep it
(`run_induction`). Two such facts hold for every hash, also for one whose values collide:

* **`mem_servers_run`** — the declared servers are those of the history (`declared`), in which
  additions and removals only count names.
* **`Sound`** — the positions are an ordered map, and whoever owns a position is declared and has
  the position among its own points. So a look-up answers with a declared server or not at all
  (`Sound.lookup_mem`, `Sound.lookupMany_subset`).
-/

namespace GossipRing.Ring

open RedBlack

/-! ## Histories -/

/-- An operation that changes a ring. -/
inductive Op where
  | add (server : String)
  | remove (server : String)
  | addRemove (toAdd toRemove : List String)
  deriving DecidableEq, Repr

namespace Op

/-- The servers an operation speaks of. -/
def names : Op → List String
  | add server => [server]
  | remove server => [server]
  | addRemove toAdd toRemove => toAdd ++ toRemove

/-- The ring after an operation. -/
def apply (r : Ring) : Op → Ring
  | add server => (r.add server).1
  | remove server => (r.remove server).1
  | addRemove toAdd toRemove => (r.addRemove toAdd toRemove).1

/-- The declared names after an operation. -/
def declare (names : Finset String) : Op → Finset String
  | add server => insert server names
  | remove server => names.erase server
  | addRemove toAdd toRemove => (names ∪ toAdd.toFinset) \ toRemove.toFinset

end Op

/-- The ring after a history. -/
def run (r : Ring) (ops : List Op) : Ring := ops.foldl Op.apply r

/-- The names that are declared after a history from an empty ring. -/
def declared (ops : List Op) : Finset String := ops.foldl Op.declare ∅

/-- All operations of a history speak of servers in `N` only. -/
def Over (N : Set String) (ops : List Op) : Prop := ∀ op ∈ ops, ∀ s ∈ op.names, s ∈ N

/-! ## What placing and withdrawing do -/

/-- A server was placed: it was not declared, and the others lose nothing to it. -/
theorem place_eq_some {r r' : Ring} {s : String} (h : r.place s = some r') :
    s ∉ r.servers ∧
      r' = { r with
        servers := insertName s r.servers
        positions := (r.points s).foldl (fun t p => t.insert p s) r.positions } := by
  rw [place] at h
  by_cases hs : r.hasServer s = true
  · rw [if_pos hs] at h
    exact absurd h.symm (Option.some_ne_none r')
  · rw [if_neg hs] at h
    refine ⟨?_, (Option.some.inj h).symm⟩
    intro hmem
    exact hs (List.contains_iff_mem.mpr hmem)

/-- A server was withdrawn: it was declared, and its points are free now. -/
theorem withdraw_eq_some {r r' : Ring} {s : String} (h : r.withdraw s = some r') :
    s ∈ r.servers ∧
      r' = { r with
        servers := r.servers.filter fun t => t ≠ s
        positions := (r.points s).foldl (fun t p => t.erase p) r.positions } := by
  rw [withdraw] at h
  by_cases hs : r.hasServer s = true
  · rw [if_pos hs] at h
    exact ⟨List.contains_iff_mem.mp hs, (Option.some.inj h).symm⟩
  · rw [if_neg hs] at h
    exact absurd h.symm (Option.some_ne_none r')

/-- Placing changes neither the hash nor the number of points, and so no server's points. -/
theorem points_place {r r' : Ring} {s : String} (h : r.place s = some r') :
    r'.hash = r.hash ∧ r'.replicaPoints = r.replicaPoints ∧ r'.points = r.points := by
  obtain ⟨_, rfl⟩ := place_eq_some h
  exact ⟨rfl, rfl, rfl⟩

/-- Withdrawing changes neither the hash nor the number of points, and so no server's points. -/
theorem points_withdraw {r r' : Ring} {s : String} (h : r.withdraw s = some r') :
    r'.hash = r.hash ∧ r'.replicaPoints = r.replicaPoints ∧ r'.points = r.points := by
  obtain ⟨_, rfl⟩ := withdraw_eq_some h
  exact ⟨rfl, rfl, rfl⟩

/-- A placement is refused exactly when the server is declared. -/
theorem place_eq_none_iff {r : Ring} {s : String} : r.place s = none ↔ s ∈ r.servers := by
  rw [place, hasServer, ← List.contains_iff_mem]
  by_cases hs : r.servers.contains s = true
  · rw [if_pos hs]
    exact ⟨fun _ => hs, fun _ => rfl⟩
  · rw [if_neg hs]
    exact ⟨fun h => absurd h (Option.some_ne_none _), fun h => absurd h hs⟩

/-- A withdrawal is refused exactly when the server is not declared. -/
theorem withdraw_eq_none_iff {r : Ring} {s : String} : r.withdraw s = none ↔ s ∉ r.servers := by
  rw [withdraw, hasServer, ← List.contains_iff_mem]
  by_cases hs : r.servers.contains s = true
  · rw [if_pos hs]
    exact ⟨fun h => absurd h (Option.some_ne_none _), fun h => absurd hs h⟩
  · rw [if_neg hs]
    exact ⟨fun _ => hs, fun _ => rfl⟩

/-! ## Facts that every run keeps -/

section Induction

variable {P : Ring → Prop} {N : Set String}
  (hplace : ∀ {r s r'}, s ∈ N → P r → r.place s = some r' → P r')
  (hwithdraw : ∀ {r s r'}, s ∈ N → P r → r.withdraw s = some r' → P r')
  (hlog : ∀ {r : Ring} checksum events, P r →
    P { r with checksum := checksum, events := events })

include hplace hlog in
/-- What every placement and every log entry keeps, a batch of placements keeps. -/
theorem placeAll_induction {names : List String} (hnames : ∀ s ∈ names, s ∈ N) {r : Ring}
    (h : P r) : P (r.placeAll names).1 := by
  induction names generalizing r with
  | nil => exact h
  | cons s rest ih =>
      have hrest : ∀ t ∈ rest, t ∈ N := fun t ht => hnames t (List.mem_cons_of_mem s ht)
      rw [placeAll]
      cases hp : r.place s with
      | none => exact ih hrest h
      | some r' =>
          have hr' : P r' := hplace (hnames s List.mem_cons_self) h hp
          exact ih hrest (hlog r'.checksum (r'.events ++ [RingEvent.added s]) hr')

include hwithdraw hlog in
/-- What every withdrawal and every log entry keeps, a batch of withdrawals keeps. -/
theorem withdrawAll_induction {names : List String} (hnames : ∀ s ∈ names, s ∈ N) {r : Ring}
    (h : P r) : P (r.withdrawAll names).1 := by
  induction names generalizing r with
  | nil => exact h
  | cons s rest ih =>
      have hrest : ∀ t ∈ rest, t ∈ N := fun t ht => hnames t (List.mem_cons_of_mem s ht)
      rw [withdrawAll]
      cases hw : r.withdraw s with
      | none => exact ih hrest h
      | some r' =>
          have hr' : P r' := hwithdraw (hnames s List.mem_cons_self) h hw
          exact ih hrest (hlog r'.checksum (r'.events ++ [RingEvent.removed s]) hr')

include hplace hwithdraw hlog in
/-- What placements, withdrawals and log entries keep, every operation keeps. -/
theorem apply_induction {op : Op} (hnames : ∀ s ∈ op.names, s ∈ N) {r : Ring} (h : P r) :
    P (op.apply r) := by
  cases op with
  | add s =>
      show P (r.add s).1
      rw [add]
      cases hp : r.place s with
      | none => exact h
      | some r' => exact hlog (r := r') _ _ (hplace (hnames s List.mem_cons_self) h hp)
  | remove s =>
      show P (r.remove s).1
      rw [remove]
      cases hw : r.withdraw s with
      | none => exact h
      | some r' => exact hlog (r := r') _ _ (hwithdraw (hnames s List.mem_cons_self) h hw)
  | addRemove toAdd toRemove =>
      have hadded : P (r.placeAll toAdd).1 :=
        placeAll_induction hplace hlog
          (fun s hs => hnames s (List.mem_append_left toRemove hs)) h
      have hremoved : P ((r.placeAll toAdd).1.withdrawAll toRemove).1 :=
        withdrawAll_induction hwithdraw hlog
          (fun s hs => hnames s (List.mem_append_right toAdd hs)) hadded
      show P (r.addRemove toAdd toRemove).1
      rw [addRemove]
      -- what is left is the report at the end, which only writes the log
      show P (if _ then _ else _ : Ring × Bool).1
      split
      · exact hremoved
      · exact hlog (r := ((r.placeAll toAdd).1.withdrawAll toRemove).1) _ _ hremoved

include hplace hwithdraw hlog in
/-- **What placing, withdrawing and logging keep is true after every history.** -/
theorem run_induction {ops : List Op} (hover : Over N ops) {r : Ring} (h : P r) :
    P (r.run ops) := by
  induction ops generalizing r with
  | nil => exact h
  | cons op rest ih =>
      refine ih (fun op' hop' => hover op' (List.mem_cons_of_mem op hop')) ?_
      exact apply_induction hplace hwithdraw hlog (hover op List.mem_cons_self) h

end Induction

/-! ## The declared servers -/

/-- An inserted name joins the others. -/
theorem mem_insertName {name other : String} {names : List String} :
    other ∈ insertName name names ↔ other = name ∨ other ∈ names := by
  induction names with
  | nil => simp [insertName]
  | cons first rest ih =>
      rw [insertName]
      split
      · rw [List.mem_cons]
      · split
        · next heq => simp [heq]
        · rw [List.mem_cons, List.mem_cons, ih]
          tauto

/-- An inserted name takes its place among names in ascending order. -/
theorem insertName_ascending {name : String} {names : List String}
    (h : names.Pairwise (· < ·)) : (insertName name names).Pairwise (· < ·) := by
  induction names with
  | nil => exact List.pairwise_singleton _ name
  | cons first rest ih =>
      obtain ⟨hfirst, hrest⟩ := List.pairwise_cons.mp h
      rw [insertName]
      split
      · next hlt =>
        refine List.pairwise_cons.mpr ⟨?_, h⟩
        intro other hother
        rcases List.mem_cons.mp hother with rfl | hother
        · exact hlt
        · exact lt_trans hlt (hfirst other hother)
      · next hnlt =>
        split
        · exact h
        · next hne =>
          refine List.pairwise_cons.mpr ⟨?_, ih hrest⟩
          intro other hother
          -- what stands behind the first name is the new one or was there before
          rcases mem_insertName.mp hother with rfl | hother
          · exact lt_of_le_of_ne (not_lt.mp hnlt) (Ne.symm hne)
          · exact hfirst other hother

/-- Placing a server adds it and no other. -/
theorem mem_servers_place {r r' : Ring} {s t : String} (h : r.place s = some r') :
    t ∈ r'.servers ↔ t = s ∨ t ∈ r.servers := by
  obtain ⟨_, rfl⟩ := place_eq_some h
  exact mem_insertName

/-- Withdrawing a server takes it out and no other. -/
theorem mem_servers_withdraw {r r' : Ring} {s t : String} (h : r.withdraw s = some r') :
    t ∈ r'.servers ↔ t ∈ r.servers ∧ t ≠ s := by
  obtain ⟨_, rfl⟩ := withdraw_eq_some h
  show t ∈ r.servers.filter (fun t => decide (t ≠ s)) ↔ _
  rw [List.mem_filter, decide_eq_true_eq]

/-- After a batch of placements the servers are those before and the given ones. -/
theorem mem_servers_placeAll {r : Ring} {names : List String} {t : String} :
    t ∈ (r.placeAll names).1.servers ↔ t ∈ names ∨ t ∈ r.servers := by
  induction names generalizing r with
  | nil => simp [placeAll]
  | cons s rest ih =>
      rw [placeAll, List.mem_cons]
      cases hp : r.place s with
      | none =>
          have hs : s ∈ r.servers := place_eq_none_iff.mp hp
          show t ∈ (r.placeAll rest).1.servers ↔ _
          rw [ih]
          constructor
          · tauto
          · rintro ((rfl | h) | h)
            · exact Or.inr hs
            · exact Or.inl h
            · exact Or.inr h
      | some r' =>
          show t ∈ ((r'.emit (.added s)).placeAll rest).1.servers ↔ _
          rw [ih]
          show t ∈ rest ∨ t ∈ r'.servers ↔ _
          rw [mem_servers_place hp]
          tauto

/-- After a batch of withdrawals the servers are those before without the given ones. -/
theorem mem_servers_withdrawAll {r : Ring} {names : List String} {t : String} :
    t ∈ (r.withdrawAll names).1.servers ↔ t ∈ r.servers ∧ t ∉ names := by
  induction names generalizing r with
  | nil => simp [withdrawAll]
  | cons s rest ih =>
      rw [withdrawAll, List.mem_cons, not_or]
      cases hw : r.withdraw s with
      | none =>
          have hs : s ∉ r.servers := withdraw_eq_none_iff.mp hw
          show t ∈ (r.withdrawAll rest).1.servers ↔ _
          rw [ih]
          constructor
          · rintro ⟨ht, hrest⟩
            refine ⟨ht, ?_, hrest⟩
            rintro rfl
            exact hs ht
          · tauto
      | some r' =>
          show t ∈ ((r'.emit (.removed s)).withdrawAll rest).1.servers ↔ _
          rw [ih]
          show t ∈ r'.servers ∧ t ∉ rest ↔ _
          rw [mem_servers_withdraw hw]
          tauto

/-- After a batch a server is declared if it was or was to be added, and was not to be removed. -/
theorem mem_servers_addRemove {r : Ring} {toAdd toRemove : List String} {t : String} :
    t ∈ (r.addRemove toAdd toRemove).1.servers ↔
      (t ∈ toAdd ∨ t ∈ r.servers) ∧ t ∉ toRemove := by
  rw [← mem_servers_placeAll, ← mem_servers_withdrawAll, addRemove]
  show t ∈ (if _ then _ else _ : Ring × Bool).1.servers ↔ _
  split
  · exact Iff.rfl
  · exact Iff.rfl

/-- After an addition the server is there, whether it was new or not. -/
theorem mem_servers_add {r : Ring} {s t : String} :
    t ∈ (r.add s).1.servers ↔ t = s ∨ t ∈ r.servers := by
  rw [add]
  cases hp : r.place s with
  | none =>
      have hs : s ∈ r.servers := place_eq_none_iff.mp hp
      constructor
      · exact Or.inr
      · rintro (rfl | ht)
        · exact hs
        · exact ht
  | some r' =>
      show t ∈ r'.servers ↔ _
      exact mem_servers_place hp

/-- After a removal the server is gone, whether it was there or not. -/
theorem mem_servers_remove {r : Ring} {s t : String} :
    t ∈ (r.remove s).1.servers ↔ t ∈ r.servers ∧ t ≠ s := by
  rw [remove]
  cases hw : r.withdraw s with
  | none =>
      have hs : s ∉ r.servers := withdraw_eq_none_iff.mp hw
      constructor
      · intro ht
        exact ⟨ht, fun heq => hs (heq ▸ ht)⟩
      · exact And.left
  | some r' =>
      show t ∈ r'.servers ↔ _
      exact mem_servers_withdraw hw

/-- One operation declares and withdraws the names it says. -/
theorem mem_servers_apply {r : Ring} {names : Finset String}
    (h : ∀ t, t ∈ r.servers ↔ t ∈ names) (op : Op) (t : String) :
    t ∈ (op.apply r).servers ↔ t ∈ op.declare names := by
  cases op with
  | add s =>
      show t ∈ (r.add s).1.servers ↔ t ∈ insert s names
      rw [mem_servers_add, Finset.mem_insert, ← h]
  | remove s =>
      show t ∈ (r.remove s).1.servers ↔ t ∈ names.erase s
      rw [mem_servers_remove, Finset.mem_erase, ← h, and_comm]
  | addRemove toAdd toRemove =>
      show t ∈ (r.addRemove toAdd toRemove).1.servers ↔
        t ∈ (names ∪ toAdd.toFinset) \ toRemove.toFinset
      rw [mem_servers_addRemove, Finset.mem_sdiff, Finset.mem_union, List.mem_toFinset,
        List.mem_toFinset, ← h, or_comm]

/-- **The declared servers are those of the history.** -/
theorem mem_servers_run (n : Nat) (hash : HashFunction) (ops : List Op) (t : String) :
    t ∈ ((empty n hash).run ops).servers ↔ t ∈ declared ops := by
  -- the induction needs every ring that declares the names so far, not only the empty one
  have hall : ∀ (ops : List Op) (r : Ring) (names : Finset String),
      (∀ t, t ∈ r.servers ↔ t ∈ names) →
      ∀ t, t ∈ (r.run ops).servers ↔ t ∈ ops.foldl Op.declare names := by
    intro ops
    induction ops with
    | nil => intro r names h; exact h
    | cons op rest ih => intro r names h; exact ih _ _ (mem_servers_apply h op)
  refine hall ops (empty n hash) ∅ ?_ t
  intro t
  exact iff_of_false List.not_mem_nil (Finset.notMem_empty t)

/-! ## Soundness: owners are declared -/

/-- Points taken one by one: a free one is the server's now, a taken one keeps its owner. -/
theorem get?_take {t : RedBlack.Tree String} (h : t.Ordered) (s : String) (ps : List UInt32) :
    (ps.foldl (fun t p => t.insert p s) t).Ordered ∧
      ∀ q, (ps.foldl (fun t p => t.insert p s) t).get? q =
        (t.get? q).or (if q ∈ ps then some s else none) := by
  induction ps generalizing t with
  | nil => exact ⟨h, fun q => by simp⟩
  | cons p rest ih =>
      obtain ⟨hordered, hget⟩ := ih (h.insert p s)
      refine ⟨hordered, ?_⟩
      intro q
      rw [List.foldl_cons, hget, Tree.get?_insert h]
      by_cases hq : q = p
      · -- the point may come again among the rest; it has its owner by then
        subst hq
        cases hold : t.get? q with
        | none => simp
        | some owner => simp
      · simp [hq]

/-- Points given up one by one: they are free now, and the others keep their owners. -/
theorem get?_giveUp {t : RedBlack.Tree String} (h : t.Ordered) (ps : List UInt32) :
    (ps.foldl (fun t p => t.erase p) t).Ordered ∧
      ∀ q, (ps.foldl (fun t p => t.erase p) t).get? q =
        if q ∈ ps then none else t.get? q := by
  induction ps generalizing t with
  | nil => exact ⟨h, fun q => by simp⟩
  | cons p rest ih =>
      obtain ⟨hordered, hget⟩ := ih (h.erase p)
      refine ⟨hordered, ?_⟩
      intro q
      rw [List.foldl_cons, hget, Tree.get?_erase h]
      by_cases hq : q = p
      · simp [hq]
      · simp [hq]

/-- The positions are an ordered map, the servers stand in order, and whoever owns a position is
    declared and has it among its points. -/
structure Sound (r : Ring) : Prop where
  ordered : r.positions.Ordered
  ascending : r.servers.Pairwise (· < ·)
  owned : ∀ {p s}, r.positions.get? p = some s → s ∈ r.servers ∧ p ∈ r.points s

namespace Sound

variable {r r' : Ring} {s : String}

theorem empty (n : Nat) (hash : HashFunction) : Sound (Ring.empty n hash) where
  ordered := Tree.ordered_leaf
  ascending := List.Pairwise.nil
  owned := nofun

/-- The owner of each position after a server was placed. -/
theorem get?_place (h : Sound r) (hp : r.place s = some r') (q : UInt32) :
    r'.positions.get? q = (r.positions.get? q).or (if q ∈ r.points s then some s else none) := by
  obtain ⟨_, rfl⟩ := place_eq_some hp
  exact (get?_take h.ordered s (r.points s)).2 q

/-- The owner of each position after a server was withdrawn. -/
theorem get?_withdraw (h : Sound r) (hw : r.withdraw s = some r') (q : UInt32) :
    r'.positions.get? q = if q ∈ r.points s then none else r.positions.get? q := by
  obtain ⟨_, rfl⟩ := withdraw_eq_some hw
  exact (get?_giveUp h.ordered (r.points s)).2 q

/-- The owner of each position after a server was added: a free point is the server's now, unless
    it was declared before. -/
theorem get?_add (h : Sound r) (s : String) (q : UInt32) :
    (r.add s).1.positions.get? q =
      if s ∈ r.servers then r.positions.get? q
      else (r.positions.get? q).or (if q ∈ r.points s then some s else none) := by
  rw [add]
  cases hp : r.place s with
  | none => rw [if_pos (place_eq_none_iff.mp hp)]
  | some r' =>
      rw [if_neg (place_eq_some hp).1]
      exact h.get?_place hp q

/-- The owner of each position after a server was removed: its points are free, whoever owned
    them. -/
theorem get?_remove (h : Sound r) (s : String) (q : UInt32) :
    (r.remove s).1.positions.get? q =
      if s ∈ r.servers ∧ q ∈ r.points s then none else r.positions.get? q := by
  rw [remove]
  cases hw : r.withdraw s with
  | none => rw [if_neg fun hs => withdraw_eq_none_iff.mp hw hs.1]
  | some r' =>
      simp only [(withdraw_eq_some hw).1, true_and]
      exact h.get?_withdraw hw q

/-- A placement keeps a ring sound: the positions that it takes belong to the new server or were owned
    before. -/
theorem place (h : Sound r) (hp : r.place s = some r') : Sound r' := by
  have hget := h.get?_place hp
  have hmem : ∀ t, t ∈ r'.servers ↔ t = s ∨ t ∈ r.servers := fun t => mem_servers_place hp
  obtain ⟨_, rfl⟩ := place_eq_some hp
  refine ⟨(get?_take h.ordered s (r.points s)).1, insertName_ascending h.ascending, ?_⟩
  intro p owner howner
  rw [hget, Option.or_eq_some_iff] at howner
  -- an owner of before is still one, and a new owner is the server that was placed
  rcases howner with hold | ⟨_, hnew⟩
  · obtain ⟨hdeclared, hpoint⟩ := h.owned hold
    exact ⟨(hmem owner).mpr (Or.inr hdeclared), hpoint⟩
  · by_cases hpoint : p ∈ r.points s
    · rw [if_pos hpoint] at hnew
      have hs : s = owner := Option.some.inj hnew
      subst hs
      exact ⟨(hmem s).mpr (Or.inl rfl), hpoint⟩
    · rw [if_neg hpoint] at hnew
      exact absurd hnew.symm (Option.some_ne_none owner)

/-- A withdrawal keeps a ring sound, as it gives up every position of the server that goes. -/
theorem withdraw (h : Sound r) (hw : r.withdraw s = some r') : Sound r' := by
  have hget := h.get?_withdraw hw
  have hmem : ∀ t, t ∈ r'.servers ↔ t ∈ r.servers ∧ t ≠ s := fun t => mem_servers_withdraw hw
  obtain ⟨_, rfl⟩ := withdraw_eq_some hw
  refine ⟨(get?_giveUp h.ordered (r.points s)).1, h.ascending.filter _, ?_⟩
  intro p owner howner
  rw [hget] at howner
  by_cases hpoint : p ∈ r.points s
  · rw [if_pos hpoint] at howner
    exact absurd howner.symm (Option.some_ne_none owner)
  · rw [if_neg hpoint] at howner
    obtain ⟨hdeclared, hown⟩ := h.owned howner
    refine ⟨(hmem owner).mpr ⟨hdeclared, ?_⟩, hown⟩
    -- the withdrawn server itself owns nothing any more: all its points are free
    rintro rfl
    exact hpoint hown

theorem log (h : Sound r) (checksum : Option UInt32) (events : List RingEvent) :
    Sound { r with checksum := checksum, events := events } :=
  ⟨h.ordered, h.ascending, h.owned⟩

/-- Every run keeps a ring sound, whatever the hash. -/
theorem run (h : Sound r) (ops : List Op) : Sound (r.run ops) :=
  run_induction (N := Set.univ) (fun _ h hp => h.place hp) (fun _ h hw => h.withdraw hw)
    (fun checksum events h => h.log checksum events) (fun _ _ _ _ => Set.mem_univ _) h

end Sound

/-! ## Look-ups -/

/-- The owner of a key stands first above its hash, or else first of all. -/
theorem lookup_eq {r : Ring} (h : Sound r) (key : String) :
    r.lookup key =
      (((r.positions.toList.filter fun e => r.hash key < e.1).head?).or
        r.positions.toList.head?).map Prod.snd := by
  rw [lookup, Cursor.value?_eq_head?, Tree.toList_upperBound h.ordered, Tree.min?_eq_head?]
  cases (r.positions.toList.filter fun e => r.hash key < e.1).head? with
  | none => rfl
  | some e => rfl

/-- The owners around the ring are the owners of positions. -/
theorem exists_mem_of_mem_owners {r : Ring} (h : Sound r) {key s : String}
    (hs : s ∈ r.owners key) : ∃ p, r.positions.get? p = some s := by
  obtain ⟨⟨p, owner⟩, he, rfl⟩ := List.mem_map.mp hs
  refine ⟨p, (Tree.get?_eq_some_iff h.ordered p owner).mpr ?_⟩
  -- the walk has two stretches: above the key, and from the start up to it
  rcases List.mem_append.mp he with he | he
  · rw [Tree.toList_upperBound h.ordered] at he
    exact (List.mem_filter.mp he).1
  · rw [Tree.toList_start] at he
    exact (List.takeWhile_sublist _).mem he

/-- The different names are picked from the list. -/
theorem firstDistinct_subset {n : Nat} {seen names : List String} :
    firstDistinct n seen names ⊆ names := by
  induction names generalizing n seen with
  | nil => cases n <;> exact List.nil_subset _
  | cons name rest ih =>
      cases n with
      | zero => exact List.nil_subset _
      | succ n =>
          rw [firstDistinct]
          split
          · exact List.subset_cons_of_subset name ih
          · exact List.cons_subset_cons name ih

/-- **A look-up answers with a declared server.** -/
theorem Sound.lookup_mem {r : Ring} (h : Sound r) {key s : String} (hl : r.lookup key = some s) :
    s ∈ r.servers := by
  rw [lookup_eq h, Option.map_eq_some_iff] at hl
  obtain ⟨⟨p, owner⟩, he, rfl⟩ := hl
  have hentry : (p, owner) ∈ r.positions.toList := by
    rcases Option.or_eq_some_iff.mp he with he | ⟨_, he⟩
    · exact (List.mem_filter.mp (List.mem_of_mem_head? he)).1
    · exact List.mem_of_mem_head? he
  exact (h.owned ((Tree.get?_eq_some_iff h.ordered p owner).mpr hentry)).1

/-- **A look-up of several servers answers with declared ones.** -/
theorem Sound.lookupMany_subset {r : Ring} (h : Sound r) (key : String) (n : Nat) :
    r.lookupMany key n ⊆ r.servers := by
  intro s hs
  obtain ⟨p, hp⟩ := exists_mem_of_mem_owners h (firstDistinct_subset hs)
  exact (h.owned hp).1

end GossipRing.Ring
