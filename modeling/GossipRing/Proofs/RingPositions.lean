import GossipRing.Hash.Elementary
import GossipRing.Proofs.RingRuns
import Mathlib.Data.List.Nodup
import Mathlib.Data.Set.Insert

/-!
# Who owns which position

A position is named only by a hash value. Placing a server leaves a taken position to its owner,
and withdrawing one frees its points whoever owns them, so everything hangs on whether the points
of different servers meet.

* **`PointsApart`** — the points of some servers never meet. Then a declared server owns all its
  points after every history (`Full.run`), so the positions, and with them every look-up, are
  determined by the declared servers alone (`Full.lookup_congr`, `Full.lookupMany_congr`).
* **`IsNext`** — the clockwise reading of a look-up (`lookup_eq_some_iff`).
* **`TextsApart`** — the texts that are hashed are different. A hash without collisions does not
  give that: a count is written behind a name with nothing between them, so `a` with the count
  `10` and `a1` with the count `0` are one text.
* **`full_or_absent_iff`** — with a hash that never collides, a declared server owns all its points
  after every history exactly when the texts are apart.
* **`Deserted`** — nobody owns a position and no key is found. With any hash that is what is left once
  every server is gone (`no_ghosts`).
-/

namespace GossipRing.Ring

open RedBlack

/-! ## Points and texts -/

/-- The points of different servers, and the different points of one server, never meet. -/
def PointsApart (hash : HashFunction) (n : Nat) (N : Set String) : Prop :=
  ∀ s ∈ N, ∀ t ∈ N, ∀ i < n, ∀ j < n,
    hash (s ++ toString i) = hash (t ++ toString j) → s = t ∧ i = j

/-- A name with a count behind it tells the name. -/
def TextsApart (n : Nat) (N : Set String) : Prop :=
  ∀ s ∈ N, ∀ t ∈ N, ∀ i < n, ∀ j < n, s ++ toString i = t ++ toString j → s = t

/-- The hash never takes two different texts of these names to one value. -/
def CollisionFree (hash : HashFunction) (n : Nat) (N : Set String) : Prop :=
  ∀ s ∈ N, ∀ t ∈ N, ∀ i < n, ∀ j < n,
    hash (s ++ toString i) = hash (t ++ toString j) → s ++ toString i = t ++ toString j

/-- A decimal numeral tells its number. -/
theorem decimal_inj {i j : Nat} (h : toString i = toString j) : i = j := by
  have hvalue := congrArg (fun text : String => Nat.ofDigitChars 10 text.toList 0)
    (show Nat.repr i = Nat.repr j from h)
  simpa using hvalue

/-- Where neither texts nor hash values meet, points do not meet. -/
theorem PointsApart.of_texts {hash : HashFunction} {n : Nat} {N : Set String}
    (hfree : CollisionFree hash n N) (htexts : TextsApart n N) : PointsApart hash n N := by
  intro s hs t ht i hi j hj heq
  have htext : s ++ toString i = t ++ toString j := hfree s hs t ht i hi j hj heq
  have hname : s = t := htexts s hs t ht i hi j hj htext
  subst hname
  exact ⟨rfl, decimal_inj ((String.append_right_inj s).mp htext)⟩

/-- The points of a server are the hashes of its name with each replica number. -/
theorem mem_points {r : Ring} {s : String} {p : UInt32} :
    p ∈ r.points s ↔ ∃ i < r.replicaPoints, r.hash (s ++ toString i) = p := by
  rw [points, List.mem_map]
  simp only [List.mem_range]

theorem length_points (r : Ring) (s : String) : (r.points s).length = r.replicaPoints := by
  rw [points, List.length_map, List.length_range]

/-! ## Declared servers own all their points -/

/-- A sound ring of this hash whose servers, all in `N`, own all their points. -/
structure Full (hash : HashFunction) (n : Nat) (N : Set String) (r : Ring) : Prop where
  sound : Sound r
  hash_eq : r.hash = hash
  replicaPoints_eq : r.replicaPoints = n
  names : ∀ s ∈ r.servers, s ∈ N
  full : ∀ s ∈ r.servers, ∀ p ∈ r.points s, r.positions.get? p = some s

namespace Full

variable {hash : HashFunction} {n : Nat} {N : Set String} {r r' : Ring} {s t : String}

theorem empty (hash : HashFunction) (n : Nat) (N : Set String) :
    Full hash n N (Ring.empty n hash) where
  sound := Sound.empty n hash
  hash_eq := rfl
  replicaPoints_eq := rfl
  names := nofun
  full := nofun

/-- A common point of two servers makes them one. -/
theorem eq_of_mem_points (h : Full hash n N r) (apart : PointsApart hash n N) (hs : s ∈ N)
    (ht : t ∈ N) {p : UInt32} (hps : p ∈ r.points s) (hpt : p ∈ r.points t) : s = t := by
  obtain ⟨i, hi, rfl⟩ := mem_points.mp hps
  obtain ⟨j, hj, heq⟩ := mem_points.mp hpt
  rw [h.replicaPoints_eq] at hi hj
  rw [h.hash_eq] at heq
  exact ((apart t ht s hs j hj i hi heq).1).symm

/-- The owner of a position is the declared server whose point it is. -/
theorem get?_eq_some_iff (h : Full hash n N r) {p : UInt32} :
    r.positions.get? p = some s ↔ s ∈ r.servers ∧ p ∈ r.points s :=
  ⟨h.sound.owned, fun ⟨hs, hp⟩ => h.full s hs p hp⟩

/-- A placement keeps the ring full, since the points of different servers are apart. -/
theorem place (apart : PointsApart hash n N) (hs : s ∈ N) (h : Full hash n N r)
    (hp : r.place s = some r') : Full hash n N r' := by
  obtain ⟨hfresh, -⟩ := place_eq_some hp
  obtain ⟨hhash, hn, hpoints⟩ := points_place hp
  refine ⟨h.sound.place hp, hhash.trans h.hash_eq, hn.trans h.replicaPoints_eq, ?_, ?_⟩
  · intro t ht
    rcases (mem_servers_place hp).mp ht with rfl | ht
    · exact hs
    · exact h.names t ht
  · intro t ht p hpt
    rw [hpoints] at hpt
    rw [h.sound.get?_place hp]
    rcases (mem_servers_place hp).mp ht with rfl | ht
    · -- nobody owned a point of the new server: its owner would have been that server
      have hfree : r.positions.get? p = none := by
        cases hold : r.positions.get? p with
        | none => rfl
        | some owner =>
            obtain ⟨howner, hpo⟩ := h.sound.owned hold
            have heq : owner = t := h.eq_of_mem_points apart (h.names owner howner) hs hpo hpt
            exact absurd (heq ▸ howner) hfresh
      rw [hfree, Option.none_or, if_pos hpt]
    · rw [h.full t ht p hpt, Option.some_or]

/-- A withdrawal keeps the ring full: no position of another server goes with it. -/
theorem withdraw (apart : PointsApart hash n N) (hs : s ∈ N) (h : Full hash n N r)
    (hw : r.withdraw s = some r') : Full hash n N r' := by
  obtain ⟨hhash, hn, hpoints⟩ := points_withdraw hw
  refine ⟨h.sound.withdraw hw, hhash.trans h.hash_eq, hn.trans h.replicaPoints_eq, ?_, ?_⟩
  · intro t ht
    exact h.names t ((mem_servers_withdraw hw).mp ht).1
  · intro t ht p hpt
    obtain ⟨ht, hne⟩ := (mem_servers_withdraw hw).mp ht
    rw [hpoints] at hpt
    have hnot : p ∉ r.points s := fun hps =>
      hne (h.eq_of_mem_points apart (h.names t ht) hs hpt hps)
    rw [h.sound.get?_withdraw hw, if_neg hnot]
    exact h.full t ht p hpt

theorem log (h : Full hash n N r) (checksum : Option UInt32) (events : List RingEvent) :
    Full hash n N { r with checksum := checksum, events := events } :=
  ⟨h.sound.log checksum events, h.hash_eq, h.replicaPoints_eq, h.names, h.full⟩

/-- **Servers whose points never meet own all of them, after every history.** -/
theorem run (apart : PointsApart hash n N) {ops : List Op} (hover : Over N ops)
    (h : Full hash n N r) : Full hash n N (r.run ops) :=
  run_induction (fun hs h hp => h.place apart hs hp) (fun hs h hw => h.withdraw apart hs hw)
    (fun checksum events h => h.log checksum events) hover h

end Full

/-! ## Clockwise from a key -/

/-- Among some positions, `p` comes next after the hash value `h`: it is the smallest above `h`,
    or none is above `h` and it is the smallest of all. -/
def IsNext (positions : Set UInt32) (h p : UInt32) : Prop :=
  p ∈ positions ∧
    ((h < p ∧ ∀ q ∈ positions, h < q → p ≤ q) ∨
      ((∀ q ∈ positions, q ≤ h) ∧ ∀ q ∈ positions, p ≤ q))

/-- The first entry above a hash value, or else the first of all, is the next one. -/
theorem head?_or_head?_eq_some_iff {α : Type} {xs : List (UInt32 × α)} (hxs : Ascending xs)
    (h : UInt32) (e : UInt32 × α) :
    (xs.filter fun e => h < e.1).head?.or xs.head? = some e ↔
      e ∈ xs ∧ IsNext {p | ∃ v, (p, v) ∈ xs} h e.1 := by
  have habove : Ascending (xs.filter fun e => h < e.1) := hxs.filter _
  constructor
  · intro hfirst
    rcases Option.or_eq_some_iff.mp hfirst with hfirst | ⟨hnone, hfirst⟩
    · obtain ⟨hmem, hleast⟩ := (habove.head?_eq_some_iff e).mp hfirst
      obtain ⟨hmem, hlt⟩ := List.mem_filter.mp hmem
      refine ⟨hmem, ⟨e.2, hmem⟩, Or.inl ⟨of_decide_eq_true hlt, ?_⟩⟩
      rintro q ⟨v, hv⟩ hlt'
      exact hleast (q, v) (List.mem_filter.mpr ⟨hv, decide_eq_true hlt'⟩)
    · -- nothing stands above: the walk starts again at the least entry
      obtain ⟨hmem, hleast⟩ := (hxs.head?_eq_some_iff e).mp hfirst
      refine ⟨hmem, ⟨e.2, hmem⟩, Or.inr ⟨?_, ?_⟩⟩
      · rintro q ⟨v, hv⟩
        have hnot := List.filter_eq_nil_iff.mp (List.head?_eq_none_iff.mp hnone) (q, v) hv
        exact UInt32.not_lt.mp fun hlt => hnot (decide_eq_true hlt)
      · rintro q ⟨v, hv⟩
        exact hleast (q, v) hv
  · rintro ⟨hmem, -, ⟨hlt, hleast⟩ | ⟨hnone, hleast⟩⟩
    · refine Option.or_eq_some_iff.mpr (Or.inl ((habove.head?_eq_some_iff e).mpr ⟨?_, ?_⟩))
      · exact List.mem_filter.mpr ⟨hmem, decide_eq_true hlt⟩
      · intro e' he'
        obtain ⟨he', hlt'⟩ := List.mem_filter.mp he'
        exact hleast e'.1 ⟨e'.2, he'⟩ (of_decide_eq_true hlt')
    · refine Option.or_eq_some_iff.mpr (Or.inr ⟨?_, ?_⟩)
      · rw [List.head?_eq_none_iff, List.filter_eq_nil_iff]
        intro e' he' hlt
        exact UInt32.not_lt.mpr (hnone e'.1 ⟨e'.2, he'⟩) (of_decide_eq_true hlt)
      · exact (hxs.head?_eq_some_iff e).mpr ⟨hmem, fun e' he' => hleast e'.1 ⟨e'.2, he'⟩⟩

/-- The positions that somebody owns. -/
def taken (r : Ring) : Set UInt32 := {p | ∃ s, (p, s) ∈ r.positions.toList}

/-- **A look-up finds the owner of the next position clockwise.** -/
theorem lookup_eq_some_iff {r : Ring} (h : Sound r) (key s : String) :
    r.lookup key = some s ↔
      ∃ p, (p, s) ∈ r.positions.toList ∧ IsNext r.taken (r.hash key) p := by
  rw [lookup_eq h, Option.map_eq_some_iff]
  simp only [head?_or_head?_eq_some_iff h.ordered]
  constructor
  · rintro ⟨⟨p, owner⟩, hnext, rfl⟩
    exact ⟨p, hnext⟩
  · rintro ⟨p, hnext⟩
    exact ⟨(p, s), hnext, rfl⟩

/-- A look-up finds nobody only where nobody owns a position. -/
theorem lookup_eq_none_iff {r : Ring} (h : Sound r) (key : String) :
    r.lookup key = none ↔ r.positions.toList = [] := by
  rw [lookup_eq h, Option.map_eq_none_iff, Option.or_eq_none_iff, List.head?_eq_none_iff,
    List.head?_eq_none_iff]
  constructor
  · exact And.right
  · intro hnil
    rw [hnil]
    exact ⟨rfl, rfl⟩

/-! ## Rings that answer alike -/

/-- A lookup depends on the entries and the hash, not on the shape of the tree. -/
theorem lookup_congr {r r' : Ring} (h : Sound r) (h' : Sound r') (hhash : r.hash = r'.hash)
    (hlist : r.positions.toList = r'.positions.toList) (key : String) :
    r.lookup key = r'.lookup key := by
  rw [lookup_eq h, lookup_eq h', hhash, hlist]

/-- A lookup depends on the entries, the servers and the hash, not on the shape of the tree. -/
theorem lookupMany_congr {r r' : Ring} (h : Sound r) (h' : Sound r') (hhash : r.hash = r'.hash)
    (hlist : r.positions.toList = r'.positions.toList) (hservers : r.servers = r'.servers)
    (key : String) (k : Nat) : r.lookupMany key k = r'.lookupMany key k := by
  have howners : r.owners key = r'.owners key := by
    rw [owners, owners, Tree.toList_upperBound h.ordered, Tree.toList_upperBound h'.ordered,
      Tree.toList_start, Tree.toList_start, hhash, hlist]
  rw [lookupMany, lookupMany, howners, hservers]

/-- Servers in ascending order are determined by which they are. -/
theorem Sound.servers_eq {r r' : Ring} (h : Sound r) (h' : Sound r')
    (hmem : ∀ s, s ∈ r.servers ↔ s ∈ r'.servers) : r.servers = r'.servers :=
  h.ascending.eq_of_mem_iff h'.ascending hmem

namespace Full

variable {hash : HashFunction} {n : Nat} {N N' : Set String} {r r' : Ring}

/-- Rings whose servers own all their points have the same positions if they have the same
    servers. -/
theorem toList_eq (h : Full hash n N r) (h' : Full hash n N' r')
    (hmem : ∀ s, s ∈ r.servers ↔ s ∈ r'.servers) : r.positions.toList = r'.positions.toList := by
  refine Tree.toList_eq_of_get?_eq h.sound.ordered h'.sound.ordered ?_
  intro p
  apply Option.ext
  intro s
  rw [h.get?_eq_some_iff, h'.get?_eq_some_iff, hmem, mem_points, mem_points, h.hash_eq,
    h'.hash_eq, h.replicaPoints_eq, h'.replicaPoints_eq]

/-- **The declared servers determine every look-up.** -/
theorem lookup_congr (h : Full hash n N r) (h' : Full hash n N' r')
    (hmem : ∀ s, s ∈ r.servers ↔ s ∈ r'.servers) (key : String) :
    r.lookup key = r'.lookup key ∧ ∀ k, r.lookupMany key k = r'.lookupMany key k := by
  have hhash : r.hash = r'.hash := h.hash_eq.trans h'.hash_eq.symm
  have hlist := h.toList_eq h' hmem
  have hservers := h.sound.servers_eq h'.sound hmem
  exact ⟨Ring.lookup_congr h.sound h'.sound hhash hlist key,
    Ring.lookupMany_congr h.sound h'.sound hhash hlist hservers key⟩

/-- With a point for each server, a look-up finds nobody only if nobody is declared. -/
theorem lookup_eq_none_iff (h : Full hash n N r) (hn : 1 ≤ n) (key : String) :
    r.lookup key = none ↔ r.servers = [] := by
  rw [Ring.lookup_eq_none_iff h.sound, List.eq_nil_iff_forall_not_mem,
    List.eq_nil_iff_forall_not_mem]
  constructor
  · intro hnone s hs
    have hpoint : r.hash (s ++ toString 0) ∈ r.points s :=
      mem_points.mpr ⟨0, by rw [h.replicaPoints_eq]; exact hn, rfl⟩
    exact hnone _ ((Tree.get?_eq_some_iff h.sound.ordered _ s).mp (h.full s hs _ hpoint))
  · rintro hnone ⟨p, s⟩ he
    exact hnone s (h.sound.owned ((Tree.get?_eq_some_iff h.sound.ordered p s).mpr he)).1

end Full

/-! ## How many positions a server owns -/

/-- The positions a server owns. -/
def positionsOf (r : Ring) (s : String) : List UInt32 :=
  (r.positions.toList.filter fun e => e.2 = s).map Prod.fst

/-- The positions of a server are those that it owns. -/
theorem mem_positionsOf {r : Ring} (h : Sound r) {s : String} {p : UInt32} :
    p ∈ r.positionsOf s ↔ r.positions.get? p = some s := by
  rw [Tree.get?_eq_some_iff h.ordered, positionsOf, List.mem_map]
  constructor
  · rintro ⟨⟨q, owner⟩, he, rfl⟩
    obtain ⟨he, howner⟩ := List.mem_filter.mp he
    have heq : owner = s := of_decide_eq_true howner
    exact heq ▸ he
  · intro he
    exact ⟨(p, s), List.mem_filter.mpr ⟨he, decide_eq_true rfl⟩, rfl⟩

theorem nodup_positionsOf {r : Ring} (h : Sound r) (s : String) : (r.positionsOf s).Nodup :=
  List.pairwise_map.mpr ((h.ordered.filter _).imp fun hlt => UInt32.ne_of_lt hlt)

/-- The positions of a server are among its points. -/
theorem positionsOf_subset {r : Ring} (h : Sound r) (s : String) :
    r.positionsOf s ⊆ r.points s :=
  fun _ hp => (h.owned ((mem_positionsOf h).mp hp)).2

/-- Whoever is not declared owns no position, whatever the hash. -/
theorem Sound.positionsOf_eq_nil {r : Ring} (h : Sound r) {s : String} (hs : s ∉ r.servers) :
    r.positionsOf s = [] := by
  rw [List.eq_nil_iff_forall_not_mem]
  intro p hp
  exact hs (h.owned ((mem_positionsOf h).mp hp)).1

/-- A server that owns as many positions as it has points owns all its points. -/
theorem get?_of_length_positionsOf {r : Ring} (h : Sound r) {s : String}
    (hlen : (r.positionsOf s).length = r.replicaPoints) {p : UInt32} (hp : p ∈ r.points s) :
    r.positions.get? p = some s := by
  -- as many different positions as points, all among the points: they are the points
  have hsub : (r.positionsOf s).Subperm (r.points s) :=
    List.subperm_of_subset (nodup_positionsOf h s) (positionsOf_subset h s)
  have hperm : (r.positionsOf s).Perm (r.points s) :=
    hsub.perm_of_length_le (by rw [hlen, length_points])
  exact (mem_positionsOf h).mp (hperm.mem_iff.mpr hp)

namespace Full

variable {hash : HashFunction} {n : Nat} {N : Set String} {r r' : Ring} {s t : String}

/-- The points of one server are all different. -/
theorem nodup_points (h : Full hash n N r) (apart : PointsApart hash n N) (hs : s ∈ N) :
    (r.points s).Nodup := by
  rw [points, h.replicaPoints_eq, h.hash_eq]
  refine List.Nodup.map_on ?_ List.nodup_range
  intro i hi j hj heq
  exact (apart s hs s hs i (List.mem_range.mp hi) j (List.mem_range.mp hj) heq).2

/-- A declared server owns as many positions as it has points, any other none. -/
theorem length_positionsOf (h : Full hash n N r) (apart : PointsApart hash n N) (s : String) :
    (r.positionsOf s).length = if s ∈ r.servers then n else 0 := by
  by_cases hs : s ∈ r.servers
  · have hmem : ∀ p, p ∈ r.positionsOf s ↔ p ∈ r.points s := by
      intro p
      rw [mem_positionsOf h.sound, h.get?_eq_some_iff]
      exact ⟨And.right, fun hp => ⟨hs, hp⟩⟩
    have hperm := (List.perm_ext_iff_of_nodup (nodup_positionsOf h.sound s)
      (h.nodup_points apart (h.names s hs))).mpr hmem
    rw [if_pos hs, hperm.length_eq, length_points, h.replicaPoints_eq]
  · rw [if_neg hs, h.sound.positionsOf_eq_nil hs, List.length_nil]

/-- Removing one server takes no position from another. -/
theorem get?_remove (h : Full hash n N r) (hne : t ≠ s) (p : UInt32) :
    (r.remove s).1.positions.get? p = some t ↔ r.positions.get? p = some t := by
  rw [h.sound.get?_remove]
  by_cases hpoint : s ∈ r.servers ∧ p ∈ r.points s
  · -- the freed points were all the removed server's own
    have howner : r.positions.get? p = some s := h.full s hpoint.1 p hpoint.2
    rw [if_pos hpoint, howner]
    constructor
    · exact nofun
    · intro heq
      exact absurd (Option.some.inj heq).symm hne
  · rw [if_neg hpoint]

end Full

/-! ## Fully present or fully absent -/

/-- No history changes the hash or the number of points. -/
theorem points_run (r : Ring) (ops : List Op) :
    (r.run ops).hash = r.hash ∧ (r.run ops).replicaPoints = r.replicaPoints ∧
      (r.run ops).points = r.points := by
  refine run_induction (N := Set.univ)
    (P := fun r' => r'.hash = r.hash ∧ r'.replicaPoints = r.replicaPoints ∧ r'.points = r.points)
    ?_ ?_ (fun _ _ h => h) (fun _ _ _ _ => Set.mem_univ _) ⟨rfl, rfl, rfl⟩
  · rintro r₁ s r₂ - ⟨hhash, hn, hpoints⟩ hp
    obtain ⟨hhash', hn', hpoints'⟩ := points_place hp
    exact ⟨hhash'.trans hhash, hn'.trans hn, hpoints'.trans hpoints⟩
  · rintro r₁ s r₂ - ⟨hhash, hn, hpoints⟩ hw
    obtain ⟨hhash', hn', hpoints'⟩ := points_withdraw hw
    exact ⟨hhash'.trans hhash, hn'.trans hn, hpoints'.trans hpoints⟩

section Meeting

variable {hash : HashFunction} {n : Nat} {s t : String} {i j : Nat}

/-- Of two servers added to an empty ring the first owns its points. -/
theorem get?_add_add (hi : i < n) :
    ((empty n hash).run [.add s, .add t]).positions.get? (hash (s ++ toString i)) = some s := by
  have hempty : Sound (empty n hash) := Sound.empty n hash
  have hfresh : s ∉ (empty n hash).servers := List.not_mem_nil
  have hpoint : hash (s ++ toString i) ∈ (empty n hash).points s := mem_points.mpr ⟨i, hi, rfl⟩
  have hfirst : ((empty n hash).add s).1.positions.get? (hash (s ++ toString i)) = some s := by
    rw [hempty.get?_add, if_neg hfresh, if_pos hpoint]
    rfl
  show (((empty n hash).add s).1.add t).1.positions.get? _ = some s
  have hsound : Sound ((empty n hash).add s).1 := hempty.run [.add s]
  rw [hsound.get?_add, hfirst, Option.some_or, ite_self]

/-- A point that two servers share is a point of the second. -/
theorem mem_points_add_add (hj : j < n) (heq : hash (s ++ toString i) = hash (t ++ toString j)) :
    hash (s ++ toString i) ∈ ((empty n hash).run [.add s, .add t]).points t := by
  rw [(points_run _ _).2.2]
  exact mem_points.mpr ⟨j, hj, heq.symm⟩

/-- If the second of two servers owns as many positions as it has points, it shares none. -/
theorem eq_of_length_positionsOf (hi : i < n) (hj : j < n)
    (heq : hash (s ++ toString i) = hash (t ++ toString j))
    (hlen : (((empty n hash).run [.add s, .add t]).positionsOf t).length = n) : s = t := by
  have hsound : Sound ((empty n hash).run [.add s, .add t]) := (Sound.empty n hash).run _
  have hn := (points_run (empty n hash) [.add s, .add t]).2.1
  have howner := get?_of_length_positionsOf hsound (hlen.trans hn.symm) (mem_points_add_add hj heq)
  exact Option.some.inj ((get?_add_add hi).symm.trans howner)

/-- If removing the second of two servers takes nothing from the first, they share no point. -/
theorem eq_of_get?_remove (hi : i < n) (hj : j < n)
    (heq : hash (s ++ toString i) = hash (t ++ toString j))
    (hkeep : s ≠ t → ∀ p, ((empty n hash).run [.add s, .add t]).positions.get? p = some s →
      (((empty n hash).run [.add s, .add t]).remove t).1.positions.get? p = some s) : s = t := by
  by_contra hne
  have hsound : Sound ((empty n hash).run [.add s, .add t]) := (Sound.empty n hash).run _
  have ht : t ∈ ((empty n hash).run [.add s, .add t]).servers :=
    (mem_servers_run n hash [.add s, .add t] t).mpr (Finset.mem_insert_self t _)
  have hkept := hkeep hne _ (get?_add_add hi)
  rw [hsound.get?_remove, if_pos ⟨ht, mem_points_add_add hj heq⟩] at hkept
  exact Option.some_ne_none s hkept.symm

theorem over_add_add {N : Set String} (hs : s ∈ N) (ht : t ∈ N) : Over N [.add s, .add t] := by
  intro op hop u hu
  rcases List.mem_cons.mp hop with rfl | hop
  · exact List.mem_singleton.mp hu ▸ hs
  · rw [List.mem_singleton.mp hop] at hu
    exact List.mem_singleton.mp hu ▸ ht

end Meeting

/-- **A hash without collisions keeps servers whole exactly when their texts are apart.**

    Who is not declared owns nothing in any case. That declared servers own all their points, and
    that removing a server takes no position from another, hold after every history over names
    none of which, with a count behind it, reads like another with a count. Where two names do
    read alike, adding the one and then the other already breaks both. -/
theorem full_or_absent_iff (n : Nat) (hash : HashFunction) (N : Set String)
    (hfree : CollisionFree hash n N) :
    (∀ ops s, s ∈ ((empty n hash).run ops).servers ↔ s ∈ declared ops) ∧
    (∀ ops s, s ∉ declared ops → ((empty n hash).run ops).positionsOf s = []) ∧
    ((∀ ops, Over N ops → ∀ s ∈ declared ops,
      (((empty n hash).run ops).positionsOf s).length = n) ↔ TextsApart n N) ∧
    ((∀ ops, Over N ops → ∀ s ∈ N, ∀ t ≠ s, ∀ p,
      ((empty n hash).run ops).positions.get? p = some t →
        (((empty n hash).run ops).remove s).1.positions.get? p = some t) ↔ TextsApart n N) := by
  refine ⟨mem_servers_run n hash, ?_, ⟨?_, ?_⟩, ⟨?_, ?_⟩⟩
  · intro ops s hs
    rw [← mem_servers_run n hash] at hs
    exact ((Sound.empty n hash).run ops).positionsOf_eq_nil hs
  · -- texts that meet: the second of the two servers comes too late for its point
    intro hfull s hs t ht i hi j hj htext
    have ht' : t ∈ declared [.add s, .add t] := Finset.mem_insert_self t _
    exact eq_of_length_positionsOf hi hj (congrArg hash htext)
      (hfull _ (over_add_add hs ht) t ht')
  · intro htexts ops hover s hs
    have apart : PointsApart hash n N := PointsApart.of_texts hfree htexts
    have hwhole := (Full.empty hash n N).run apart hover
    rw [hwhole.length_positionsOf apart s, if_pos ((mem_servers_run n hash ops s).mpr hs)]
  · -- and when it goes, it frees the point of the first
    intro hkeep s hs t ht i hi j hj htext
    exact eq_of_get?_remove hi hj (congrArg hash htext) fun hne =>
      hkeep _ (over_add_add hs ht) t ht s hne
  · intro htexts ops hover s _ t hne p
    have apart : PointsApart hash n N := PointsApart.of_texts hfree htexts
    have hwhole := (Full.empty hash n N).run apart hover
    exact (hwhole.get?_remove hne p).mpr

/-- Two servers whose texts are apart own three positions each after every history. -/
theorem full_or_absent_alpha_beta :
    CollisionFree hash32 3 {s | s ∈ ["alpha", "beta"]} ∧
    ∀ ops, Over {s | s ∈ ["alpha", "beta"]} ops → ∀ s ∈ declared ops,
      (((empty 3 hash32).run ops).positionsOf s).length = 3 := by
  have hfree : CollisionFree hash32 3 {s | s ∈ ["alpha", "beta"]} := by
    show ∀ s ∈ ["alpha", "beta"], ∀ t ∈ ["alpha", "beta"], ∀ i < 3, ∀ j < 3,
      hash32 (s ++ toString i) = hash32 (t ++ toString j) → s ++ toString i = t ++ toString j
    decide +kernel
  have htexts : TextsApart 3 {s | s ∈ ["alpha", "beta"]} := by
    show ∀ s ∈ ["alpha", "beta"], ∀ t ∈ ["alpha", "beta"], ∀ i < 3, ∀ j < 3,
      s ++ toString i = t ++ toString j → s = t
    decide +kernel
  exact ⟨hfree, (full_or_absent_iff 3 hash32 _ hfree).2.2.1.mpr htexts⟩

/-- Two addresses whose ports read alike: the default hash takes no two of their texts to one
    value, and yet the server on port 3000 does not own two of its twelve points any more once the
    one on port 30001 came and went. -/
theorem removal_takes_from_another :
    CollisionFree hash32 12 {s | s ∈ ["10.0.0.1:3000", "10.0.0.1:30001"]} ∧
    "10.0.0.1:3000" ∈
      declared [.add "10.0.0.1:3000", .add "10.0.0.1:30001", .remove "10.0.0.1:30001"] ∧
    (((empty 12 hash32).run [.add "10.0.0.1:3000", .add "10.0.0.1:30001"]).positionsOf
      "10.0.0.1:3000").length = 12 ∧
    (((empty 12 hash32).run [.add "10.0.0.1:3000", .add "10.0.0.1:30001",
      .remove "10.0.0.1:30001"]).positionsOf "10.0.0.1:3000").length = 10 := by
  have hfree : CollisionFree hash32 12 {s | s ∈ ["10.0.0.1:3000", "10.0.0.1:30001"]} := by
    show ∀ s ∈ ["10.0.0.1:3000", "10.0.0.1:30001"], ∀ t ∈ ["10.0.0.1:3000", "10.0.0.1:30001"],
      ∀ i < 12, ∀ j < 12,
        hash32 (s ++ toString i) = hash32 (t ++ toString j) → s ++ toString i = t ++ toString j
    decide +kernel
  refine ⟨hfree, ?_, ?_, ?_⟩
  · decide +kernel
  · decide +kernel
  · decide +kernel

/-! ## Nobody answers who is gone -/

/-- The ring owns no position and finds nobody. -/
structure Deserted (r : Ring) : Prop where
  servers : r.servers = []
  positions : r.positions = .leaf
  lookup : ∀ key, r.lookup key = none
  lookupMany : ∀ key k, r.lookupMany key k = []

/-- **Who owns a position is declared**, so a sound ring that declares nobody is deserted. -/
theorem Sound.deserted {r : Ring} (h : Sound r) (hnone : r.servers = []) : Deserted r where
  servers := hnone
  positions := by
    refine Tree.eq_leaf_of_toList_eq_nil (List.eq_nil_iff_forall_not_mem.mpr ?_)
    rintro ⟨p, s⟩ hentry
    have hdeclared := (h.owned ((Tree.get?_eq_some_iff h.ordered p s).mpr hentry)).1
    rw [hnone] at hdeclared
    exact List.not_mem_nil hdeclared
  lookup key := by
    refine Option.eq_none_iff_forall_ne_some.mpr fun s hs => ?_
    have hdeclared := h.lookup_mem hs
    rw [hnone] at hdeclared
    exact List.not_mem_nil hdeclared
  lookupMany key k := by
    have hdeclared := h.lookupMany_subset key k
    rw [hnone] at hdeclared
    exact List.subset_nil.mp hdeclared

theorem declared_append (first second : List Op) :
    declared (first ++ second) = second.foldl Op.declare (declared first) := List.foldl_append

/-- Names that are removed one by one are those that are not left. -/
theorem foldl_declare_remove (names : Finset String) (order : List String) :
    (order.map Op.remove).foldl Op.declare names = names \ order.toFinset := by
  induction order generalizing names with
  | nil => rw [List.map_nil, List.foldl_nil, List.toFinset_nil, Finset.sdiff_empty]
  | cons s rest ih =>
      rw [List.map_cons, List.foldl_cons, ih, List.toFinset_cons]
      show names.erase s \ rest.toFinset = names \ insert s rest.toFinset
      rw [Finset.erase_sdiff_comm, Finset.sdiff_insert]

/-- **No ring has ghosts, however its points meet.**

    Take any hash, a constant one included, any number of points, and any history. Whoever owns a
    position is declared and has it among its own points, and look-ups answer with declared servers
    only. Where the history leaves nobody declared, the tree is empty and no key is found. So it is
    once every declared server was removed, one by one in any order or in one batch. -/
theorem no_ghosts (n : Nat) (hash : HashFunction) (ops : List Op) :
    (∀ p s, (p, s) ∈ ((empty n hash).run ops).positions.toList →
      s ∈ declared ops ∧ ∃ i < n, hash (s ++ toString i) = p) ∧
    (∀ key s, ((empty n hash).run ops).lookup key = some s → s ∈ declared ops) ∧
    (∀ key k, ∀ s ∈ ((empty n hash).run ops).lookupMany key k, s ∈ declared ops) ∧
    (declared ops = ∅ → Deserted ((empty n hash).run ops)) ∧
    ∀ order : List String, declared ops ⊆ order.toFinset →
      Deserted ((empty n hash).run (ops ++ order.map .remove)) ∧
      Deserted ((empty n hash).run (ops ++ [.addRemove [] order])) := by
  have hsound : ∀ ops, Sound ((empty n hash).run ops) := fun ops => (Sound.empty n hash).run ops
  -- a ring without servers has no positions, since every position has a server for its owner
  have hdeserted : ∀ ops, declared ops = ∅ → Deserted ((empty n hash).run ops) := by
    intro ops hnone
    refine (hsound ops).deserted (List.eq_nil_iff_forall_not_mem.mpr fun s hs => ?_)
    rw [mem_servers_run, hnone] at hs
    exact Finset.notMem_empty s hs
  refine ⟨?_, ?_, ?_, hdeserted ops, ?_⟩
  · intro p s hentry
    obtain ⟨hdeclared, hpoint⟩ :=
      (hsound ops).owned ((Tree.get?_eq_some_iff (hsound ops).ordered p s).mpr hentry)
    rw [mem_points, (points_run _ ops).1, (points_run _ ops).2.1] at hpoint
    exact ⟨(mem_servers_run n hash ops s).mp hdeclared, hpoint⟩
  · exact fun key s hfound => (mem_servers_run n hash ops s).mp ((hsound ops).lookup_mem hfound)
  · exact fun key k s hs =>
      (mem_servers_run n hash ops s).mp ((hsound ops).lookupMany_subset key k hs)
  · intro order hall
    have hgone : declared ops \ order.toFinset = ∅ := Finset.sdiff_eq_empty_iff_subset.mpr hall
    refine ⟨hdeserted _ ?_, hdeserted _ ?_⟩
    · rw [declared_append, foldl_declare_remove, hgone]
    · rw [declared_append]
      show (declared ops ∪ [].toFinset) \ order.toFinset = ∅
      rw [List.toFinset_nil, Finset.union_sdiff_distrib, hgone, Finset.empty_sdiff]
      rfl

/-- Under a constant hash the first server has the only position, and its removal leaves the second one
    declared without any. Once that one is gone too, nothing is left. -/
theorem no_ghosts_on_one_point :
    ((empty 3 fun _ => 7).run [.add "b", .add "a"]).positions.toList = [(7, "b")] ∧
    "b" ∈ declared [.add "b", .add "a"] ∧
    ((empty 3 fun _ => 7).run [.add "b", .add "a", .remove "b"]).lookup "key" = none ∧
    "a" ∈ declared [.add "b", .add "a", .remove "b"] ∧
    Deserted ((empty 3 fun _ => 7).run
      ([.add "b", .add "a"] ++ ["b", "a"].map .remove)) := by
  obtain ⟨howned, -, -, -, hgone⟩ := no_ghosts 3 (fun _ => 7) [.add "b", .add "a"]
  have hentry : ((empty 3 fun _ => 7).run [.add "b", .add "a"]).positions.toList = [(7, "b")] := by
    decide +kernel
  refine ⟨hentry, (howned 7 "b" (hentry ▸ List.mem_singleton_self _)).1, ?_, ?_,
    (hgone ["b", "a"] ?_).1⟩
  all_goals decide +kernel

end GossipRing.Ring
