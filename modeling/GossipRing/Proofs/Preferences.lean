import GossipRing.Proofs.Walks

/-!
# What a server's coming and going moves

Toward: consistent hashing. Two rings that differ in one server agree on all the others, for every
key and whatever the hash, where the server that goes took no point from another.

A ring is read through the list of servers that a key prefers (`preferences`). The positions of two
such rings are the same once the server's own are left out, and leaving them out goes through every
step from the positions to that list: the cut at the key, the owners, and the repetitions
(`preferences_eq_erase`), so nothing need be said of who follows a key.

* **`everyone`** — the answer to a look-up of as many servers as are declared.
* **`HoldsAlone`** — none of a server's points is held by another.
* **`moves_only_what_must`** — the result.
-/

namespace GossipRing.Ring

open RedBlack

/-- All that a look-up can name for a key: it asks for as many servers as are declared. -/
def everyone (r : Ring) (key : String) : List String := r.lookupMany key r.servers.length

/-- None of the server's points is held by another server. -/
def HoldsAlone (r : Ring) (s : String) : Prop :=
  ∀ p t, (p, t) ∈ r.positions.toList → p ∈ r.points s → t = s

/-! ## The preferred servers, all of them -/

/-- Every preferred server is declared, so a look-up that asks for all of them names them all. -/
theorem everyone_eq {r : Ring} (h : Sound r) (key : String) :
    r.everyone key = r.preferences key := by
  have hdeclared : r.preferences key ⊆ r.servers := by
    intro s hs
    obtain ⟨p, hp⟩ := mem_preferences.mp hs
    exact (h.owned ((Tree.get?_eq_some_iff h.ordered p s).mpr hp)).1
  have hlength : (r.preferences key).length ≤ r.servers.length :=
    ((nodup_eraseDups _).subperm hdeclared).length_le
  rw [everyone, lookupMany_eq_take h, Nat.min_self, List.take_of_length_le hlength]

/-! ## Leaving a server out -/

/-- Names can be left out before or after the repetitions are. -/
theorem eraseDups_filter (keep : String → Bool) (names : List String) :
    (names.filter keep).eraseDups = names.eraseDups.filter keep := by
  induction hn : names.length using Nat.strong_induction_on generalizing names with
  | _ n ih =>
      cases names with
      | nil => rfl
      | cons name rest =>
          have hrest : ∀ names : List String, names.length ≤ rest.length →
              (names.filter keep).eraseDups = names.eraseDups.filter keep := by
            intro names hle
            refine ih _ ?_ names rfl
            rw [← hn, List.length_cons]
            exact Nat.lt_succ_of_le hle
          rw [List.eraseDups_cons]
          by_cases hkeep : keep name = true
          · rw [List.filter_cons_of_pos hkeep, List.filter_cons_of_pos hkeep, List.eraseDups_cons,
              ← hrest _ (List.length_filter_le _ rest), List.filter_filter, List.filter_filter]
            simp only [Bool.and_comm]
          · -- the name is left out, and with it every repetition of it
            rw [List.filter_cons_of_neg hkeep, List.filter_cons_of_neg hkeep,
              ← hrest _ (List.length_filter_le _ rest), List.filter_filter]
            congr 1
            refine List.filter_congr fun other _ => ?_
            by_cases hother : other = name
            · rw [hother, Bool.eq_false_iff.mpr hkeep, Bool.false_and]
            · rw [beq_eq_false_iff_ne.mpr hother, Bool.not_false, Bool.and_true]

/-- Where two rings have the same positions but for those of one server, every key prefers the same
    servers but for that one. -/
theorem preferences_eq_erase {r r' : Ring} {s : String} (hhash : r.hash = r'.hash)
    (hlist : r.positions.toList = r'.positions.toList.filter fun e => e.2 ≠ s) (key : String) :
    r.preferences key = (r'.preferences key).erase s := by
  have hclockwise : r.clockwise (r.hash key) =
      (r'.clockwise (r'.hash key)).filter fun e => e.2 ≠ s := by
    rw [clockwise, clockwise, hlist, hhash, List.filter_append]
    simp only [List.filter_filter, Bool.and_comm]
  rw [preferences, preferences, (nodup_eraseDups _).erase_eq_filter, hclockwise,
    ← eraseDups_filter, List.filter_map]
  congr 2
  refine List.filter_congr fun e _ => ?_
  rw [Function.comp_apply, bne, decide_not]
  rfl

/-- Without one name a list begins as before, unless it began with that name. -/
theorem head?_erase (s : String) (names : List String) :
    (names.erase s).head? = names.head? ∨ names.head? = some s := by
  cases names with
  | nil => exact Or.inl rfl
  | cons name rest =>
      by_cases hs : name = s
      · exact Or.inr (congrArg some hs)
      · rw [List.erase_cons_tail (by simpa using hs)]
        exact Or.inl rfl

/-- Where every key prefers the same servers but for one, a key's owner is another only where that
    one is involved. -/
theorem lookup_eq_or_of_erase {r r' : Ring} (h : Sound r) (h' : Sound r') {s key : String}
    (herase : r.preferences key = (r'.preferences key).erase s) :
    r.lookup key = r'.lookup key ∨ r'.lookup key = some s := by
  rw [← head?_preferences h, ← head?_preferences h', herase]
  exact head?_erase s _

/-! ## A server comes or goes -/

/-- A new server takes free points only: without its positions the ring is as it was. -/
theorem toList_add {r : Ring} (h : Sound r) {s : String} (hs : s ∉ r.servers) :
    r.positions.toList = (r.add s).1.positions.toList.filter fun e => e.2 ≠ s := by
  have hadded : Sound (r.add s).1 := h.run [.add s]
  refine Ascending.eq_of_mem_iff h.ordered (List.Pairwise.filter _ hadded.ordered) fun ⟨p, t⟩ => ?_
  rw [List.mem_filter, decide_eq_true_eq, ← Tree.get?_eq_some_iff h.ordered,
    ← Tree.get?_eq_some_iff hadded.ordered, h.get?_add, if_neg hs, Option.or_eq_some_iff]
  constructor
  · intro hold
    exact ⟨Or.inl hold, fun hts => hs (hts ▸ (h.owned hold).1)⟩
  · rintro ⟨hold | ⟨-, hnew⟩, hne⟩
    · exact hold
    · by_cases hp : p ∈ r.points s
      · rw [if_pos hp] at hnew
        exact absurd (Option.some.inj hnew).symm hne
      · rw [if_neg hp] at hnew
        exact absurd hnew.symm (Option.some_ne_none t)

/-- A server that holds its points alone gives up its own positions and no others. -/
theorem toList_remove {r : Ring} (h : Sound r) {s : String} (hs : s ∈ r.servers)
    (halone : r.HoldsAlone s) :
    (r.remove s).1.positions.toList = r.positions.toList.filter fun e => e.2 ≠ s := by
  have hremoved : Sound (r.remove s).1 := h.run [.remove s]
  refine Ascending.eq_of_mem_iff hremoved.ordered (List.Pairwise.filter _ h.ordered)
    fun ⟨p, t⟩ => ?_
  rw [List.mem_filter, decide_eq_true_eq, ← Tree.get?_eq_some_iff hremoved.ordered,
    ← Tree.get?_eq_some_iff h.ordered, h.get?_remove]
  simp only [hs, true_and]
  by_cases hp : p ∈ r.points s
  · rw [if_pos hp]
    constructor
    · exact nofun
    · rintro ⟨hold, hne⟩
      exact absurd (halone p t ((Tree.get?_eq_some_iff h.ordered p t).mp hold) hp) hne
  · rw [if_neg hp]
    -- who holds a point that is not the server's is another server
    exact ⟨fun hold => ⟨hold, fun hts => hp (hts ▸ (h.owned hold).2)⟩, And.left⟩

theorem hash_add (r : Ring) (s : String) : (r.add s).1.hash = r.hash :=
  (points_run r [.add s]).1

theorem hash_remove (r : Ring) (s : String) : (r.remove s).1.hash = r.hash :=
  (points_run r [.remove s]).1

/-- **A server that comes or goes moves nothing that is not its own.**

    Take any hash, any number of points, any history and any key. Who adds a server that is not
    declared finds it somewhere among the servers the key prefers, and the others as they were. Who
    removes a declared server that holds its points alone finds the others as they were. So the key
    changes its owner only to the server that comes, and only if it was the server that goes. -/
theorem moves_only_what_must (replicas : Nat) (hash : HashFunction) (ops : List Op)
    (key s : String) :
    (s ∉ declared ops →
      (((empty replicas hash).run (ops ++ [.add s])).everyone key).erase s =
        ((empty replicas hash).run ops).everyone key ∧
      (((empty replicas hash).run (ops ++ [.add s])).lookup key =
          ((empty replicas hash).run ops).lookup key ∨
        ((empty replicas hash).run (ops ++ [.add s])).lookup key = some s)) ∧
    (s ∈ declared ops → ((empty replicas hash).run ops).HoldsAlone s →
      ((empty replicas hash).run (ops ++ [.remove s])).everyone key =
        (((empty replicas hash).run ops).everyone key).erase s ∧
      (((empty replicas hash).run (ops ++ [.remove s])).lookup key =
          ((empty replicas hash).run ops).lookup key ∨
        ((empty replicas hash).run ops).lookup key = some s)) := by
  have hsound : ∀ ops, Sound ((empty replicas hash).run ops) :=
    fun ops => (Sound.empty replicas hash).run ops
  constructor
  · intro hs
    rw [← mem_servers_run replicas hash] at hs
    have hlast : ((empty replicas hash).run (ops ++ [.add s])) =
        (((empty replicas hash).run ops).add s).1 := List.foldl_append
    have hadded := hsound (ops ++ [.add s])
    rw [hlast] at hadded ⊢
    -- either way the longer list is the shorter one with the server put in somewhere
    have herase := preferences_eq_erase (hash_add _ s).symm (toList_add (hsound ops) hs) key
    rw [everyone_eq (hsound ops), everyone_eq hadded]
    exact ⟨herase.symm, (lookup_eq_or_of_erase (hsound ops) hadded herase).imp Eq.symm id⟩
  · intro hs halone
    rw [← mem_servers_run replicas hash] at hs
    have hlast : ((empty replicas hash).run (ops ++ [.remove s])) =
        (((empty replicas hash).run ops).remove s).1 := List.foldl_append
    have hremoved := hsound (ops ++ [.remove s])
    rw [hlast] at hremoved ⊢
    have herase := preferences_eq_erase (hash_remove _ s) (toList_remove (hsound ops) hs halone) key
    rw [everyone_eq (hsound ops), everyone_eq hremoved]
    exact ⟨herase, lookup_eq_or_of_erase hremoved (hsound ops) herase⟩

/-- Three servers under the default hash: the second goes, and a fourth one comes. -/
theorem moves_only_what_must_of_three :
    "delta" ∉ declared [.add "alpha", .add "beta", .add "gamma"] ∧
    (((empty 3 hash32).run [.add "alpha", .add "beta", .add "gamma", .add "delta"]).everyone
      "key").erase "delta" =
      ((empty 3 hash32).run [.add "alpha", .add "beta", .add "gamma"]).everyone "key" ∧
    "beta" ∈ declared [.add "alpha", .add "beta", .add "gamma"] ∧
    ((empty 3 hash32).run [.add "alpha", .add "beta", .add "gamma"]).HoldsAlone "beta" ∧
    ((empty 3 hash32).run [.add "alpha", .add "beta", .add "gamma", .remove "beta"]).everyone
      "key" =
      (((empty 3 hash32).run [.add "alpha", .add "beta", .add "gamma"]).everyone "key").erase
        "beta" := by
  have hfresh : "delta" ∉ declared [.add "alpha", .add "beta", .add "gamma"] := by decide
  have hdeclared : "beta" ∈ declared [.add "alpha", .add "beta", .add "gamma"] := by decide
  have halone : ((empty 3 hash32).run [.add "alpha", .add "beta", .add "gamma"]).HoldsAlone
      "beta" := by
    have hall : ∀ e ∈ ((empty 3 hash32).run
        [.add "alpha", .add "beta", .add "gamma"]).positions.toList,
        e.1 ∈ ((empty 3 hash32).run [.add "alpha", .add "beta", .add "gamma"]).points "beta" →
          e.2 = "beta" := by
      decide +kernel
    exact fun p t he hp => hall (p, t) he hp
  exact ⟨hfresh,
    ((moves_only_what_must 3 hash32 [.add "alpha", .add "beta", .add "gamma"] "key" "delta").1
      hfresh).1,
    hdeclared, halone,
    ((moves_only_what_must 3 hash32 [.add "alpha", .add "beta", .add "gamma"] "key" "beta").2
      hdeclared halone).1⟩

end GossipRing.Ring
