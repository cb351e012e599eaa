import GossipRing.Proofs.NodeSteps

/-!
# One pass of probes after the other

Toward: every member that may be probed is probed in turn, whatever order is left from earlier tables
and whatever orders are drawn. A call for the next member may begin in the middle of an order that is
out of date, so it is told by the turns that are left, and not by the addresses.

* **`Rotation.turns`** — the members that have a turn in an order. In an order of all addresses each
  member that may be probed has one (`turns_perm`).
* **`Rotation.Goes`** — what one call does: it goes on with the pass, begins another one, or there is
  nobody.
* **`Rotation.Calls`** — call after call, each on its own table and with draws of its own. A pass goes
  on turn by turn (`Calls.drain`), and from one new order to the next everybody has a turn
  (`Calls.pass`).
* **`Rotation.probing_goes_round`** — both for a table that stays as it is and for tables that change.
-/

namespace GossipRing

/-- The members that this node may probe. -/
def Membership.pingable (m : Membership) : List Member := m.rows.filter m.isPingable

namespace Rotation

/-- The member of an address, if it may be probed. -/
def probed? (m : Membership) (address : String) : Option Member :=
  (m.row? address).filter m.isPingable

/-- The members that have a turn in an order. -/
def turns (m : Membership) (order : List String) : List Member := order.filterMap (probed? m)

section

variable {m : Membership} {r r' : Rotation} {chance chance' : Chance} {order rest : List String}
  {row : Member} {address : String}

theorem scan_cons (m : Membership) (address : String) (rest : List String) :
    scan m (address :: rest) =
      match probed? m address with
      | some row => some (row, rest)
      | none => scan m rest := by
  rw [scan, probed?]
  cases m.row? address with
  | none => rfl
  | some row =>
      dsimp only
      split
      · next hp => rw [Option.filter_some_pos hp]
      · next hp => rw [Option.filter_some_neg (by simpa using hp)]

theorem scan_eq_none_iff : scan m order = none ↔ turns m order = [] := by
  induction order with
  | nil => exact iff_of_true rfl rfl
  | cons address rest ih =>
      rw [scan_cons]
      cases hturn : probed? m address with
      | none => rw [turns, List.filterMap_cons_none hturn]; exact ih
      | some row =>
          rw [turns, List.filterMap_cons_some hturn]
          exact iff_of_false nofun nofun

/-- Scanning takes the first turn and passes over the addresses before it. -/
theorem turns_of_scan (h : scan m order = some (row, rest)) :
    turns m order = row :: turns m rest ∧ ∃ passed, order = passed ++ row.address :: rest := by
  induction order with
  | nil => cases h
  | cons address tail ih =>
      rw [scan_cons] at h
      cases hturn : probed? m address with
      | none =>
          rw [hturn] at h
          obtain ⟨hturns, passed, htail⟩ := ih h
          rw [turns, List.filterMap_cons_none hturn]
          exact ⟨hturns, address :: passed, congrArg (address :: ·) htail⟩
      | some found =>
          rw [hturn] at h
          obtain ⟨rfl, rfl⟩ := Prod.mk.inj (Option.some.inj h)
          have hrow := (Option.filter_eq_some_iff.mp hturn).1
          obtain ⟨-, rfl⟩ := Membership.mem_of_row?_eq_some hrow
          exact ⟨List.filterMap_cons_some hturn, [], rfl⟩

theorem mem_pingable_of_scan (h : scan m order = some (row, rest)) : row ∈ m.pingable := by
  obtain ⟨hrow, hp⟩ := Node.row?_of_scan h
  exact List.mem_filter.mpr ⟨(Membership.mem_of_row?_eq_some hrow).1, hp⟩

/-- In an order of all addresses each member that may be probed has one turn. -/
theorem turns_perm (hm : m.Distinct) (h : order.Perm (m.rows.map Member.address)) :
    (turns m order).Perm m.pingable := by
  refine (h.filterMap (probed? m)).trans (List.Perm.of_eq ?_)
  rw [List.filterMap_map, Membership.pingable, ← List.filterMap_eq_filter]
  refine List.filterMap_congr fun row hrow => ?_
  have hfound : m.row? row.address = some row := (Membership.row?_eq_some_iff hm).mpr ⟨hrow, rfl⟩
  rw [Function.comp_apply, probed?, hfound]
  rfl

theorem draw_perm (m : Membership) (chance : Chance) :
    (draw m chance).1.Perm (m.rows.map Member.address) :=
  Chance.shuffle_perm _ chance

/-- What a call does: it takes the first turn that the order has left, or the first one in an order
    over all addresses, or leaves another such order behind. -/
inductive Goes (m : Membership) (r : Rotation) : Option Member → Rotation → Prop
  | onward {row : Member} {rest : List String} (h : scan m r.order = some (row, rest)) :
      Goes m r (some row) ⟨rest⟩
  | afresh {drawn rest : List String} {row : Member} (hleft : scan m r.order = none)
      (hdrawn : drawn.Perm (m.rows.map Member.address)) (h : scan m drawn = some (row, rest)) :
      Goes m r (some row) ⟨rest⟩
  | nobody {drawn another : List String} (hleft : scan m r.order = none)
      (hdrawn : drawn.Perm (m.rows.map Member.address)) (h : scan m drawn = none)
      (hanother : another.Perm (m.rows.map Member.address)) : Goes m r none ⟨another⟩

theorem next_goes (r : Rotation) (m : Membership) (chance : Chance) :
    Goes m r (r.next m chance).1 (r.next m chance).2.1 := by
  rw [next]
  cases hleft : scan m r.order with
  | some found => exact .onward hleft
  | none =>
      cases hnew : scan m (draw m chance).1 with
      | some found =>
          simp only [hnew]
          exact .afresh hleft (draw_perm m chance) hnew
      | none =>
          simp only [hnew]
          exact .nobody hleft (draw_perm m chance) hnew (draw_perm m _)

namespace Goes

variable {target : Option Member}

/-- Whoever is picked may be probed. -/
theorem mem_pingable (h : Goes m r (some row) r') : row ∈ m.pingable := by
  cases h with
  | onward h => exact mem_pingable_of_scan h
  | afresh _ _ h => exact mem_pingable_of_scan h

/-- Nobody is picked exactly where there is nobody to probe. -/
theorem eq_none_iff (h : Goes m r target r') (hm : m.Distinct) : target = none ↔ m.pingable = [] := by
  constructor
  · rintro rfl
    cases h with
    | nobody _ hdrawn h _ =>
        have hturns := turns_perm hm hdrawn
        rw [scan_eq_none_iff.mp h] at hturns
        exact hturns.nil_eq.symm
  · intro hnobody
    cases htarget : target with
    | none => rfl
    | some row => exact absurd (htarget ▸ h).mem_pingable (hnobody ▸ List.not_mem_nil)

/-- What is taken from an order without repetitions is not in what it leaves behind. -/
theorem spends (h : Goes m r target r') (hm : m.Distinct)
    (horder : r.order.Nodup ∨ scan m r.order = none) :
    r'.order.Nodup ∧ ∀ row, target = some row → row.address ∉ r'.order := by
  have hscan : ∀ {order rest row}, order.Nodup → scan m order = some (row, rest) →
      rest.Nodup ∧ row.address ∉ rest := by
    intro order rest row hnodup hscan
    obtain ⟨-, passed, rfl⟩ := turns_of_scan hscan
    exact ⟨hnodup.of_append_right.of_cons, hnodup.of_append_right.notMem⟩
  cases h with
  | onward h =>
      obtain ⟨hrest, hpassed⟩ := hscan (horder.resolve_right (h ▸ nofun)) h
      exact ⟨hrest, fun _ heq => Option.some.inj heq ▸ hpassed⟩
  | afresh _ hdrawn h =>
      obtain ⟨hrest, hpassed⟩ := hscan (hdrawn.nodup_iff.mpr hm) h
      exact ⟨hrest, fun _ heq => Option.some.inj heq ▸ hpassed⟩
  | nobody _ _ _ hanother => exact ⟨hanother.nodup_iff.mpr hm, nofun⟩

end Goes

end

/-! ## Call after call -/

/-- Calls for the next member to probe: what is left of a pass at first, and for each call the table
    that it sees and what it draws. -/
structure Calls where
  first : Rotation
  table : ℕ → Membership
  chance : ℕ → Chance

namespace Calls

/-- What is left of the current pass before call `n`. -/
def rotation (c : Calls) : ℕ → Rotation
  | 0 => c.first
  | n + 1 => ((c.rotation n).next (c.table n) (c.chance n)).2.1

/-- Whom call `n` picks. -/
def target (c : Calls) (n : ℕ) : Option Member :=
  ((c.rotation n).next (c.table n) (c.chance n)).1

/-- Call `n` finds nobody in what is left of the pass, and draws a new order. -/
def Redraws (c : Calls) (n : ℕ) : Prop := scan (c.table n) (c.rotation n).order = none

instance (c : Calls) (n : ℕ) : Decidable (c.Redraws n) := inferInstanceAs (Decidable (_ = _))

section

variable {c : Calls} {m : Membership} {n : ℕ} {row : Member} {queue : List Member}

theorem goes (c : Calls) (n : ℕ) :
    Goes (c.table n) (c.rotation n) (c.target n) (c.rotation (n + 1)) :=
  next_goes _ _ _

/-- A call that draws no new order goes on with the pass. -/
theorem scan_of_not_redraws (h : ¬c.Redraws n) :
    ∃ row, c.target n = some row ∧
      scan (c.table n) (c.rotation n).order = some (row, (c.rotation (n + 1)).order) := by
  have hgoes := c.goes n
  generalize c.target n = target, c.rotation (n + 1) = r' at hgoes ⊢
  cases hgoes with
  | onward hscan => exact ⟨_, rfl, hscan⟩
  | afresh hnone _ _ => exact absurd hnone h
  | nobody hnone _ _ _ => exact absurd hnone h

/-! ## A table that stays as it is -/

/-- A pass goes on turn by turn until it has none left. -/
theorem drain (htable : ∀ n, c.table n = m) (h : turns m (c.rotation n).order = queue) :
    (∀ i < queue.length, c.target (n + i) = queue[i]? ∧ ¬c.Redraws (n + i)) ∧
      c.Redraws (n + queue.length) := by
  induction queue generalizing n with
  | nil => exact ⟨nofun, by rwa [Redraws, htable, scan_eq_none_iff]⟩
  | cons row rest ih =>
      -- somebody is left in the order, so nothing is drawn anew before the last of them
      have hleft : ¬c.Redraws n := by
        rw [Redraws, htable, scan_eq_none_iff, h]
        exact List.cons_ne_nil _ _
      obtain ⟨row', htarget, hscan⟩ := scan_of_not_redraws hleft
      rw [htable] at hscan
      obtain ⟨rfl, hrest⟩ := List.cons.inj (h.symm.trans (turns_of_scan hscan).1)
      obtain ⟨hturns, hlast⟩ := ih hrest.symm
      refine ⟨?_, ?_⟩
      · intro i hi
        cases i with
        | zero => exact ⟨htarget, hleft⟩
        | succ i =>
            rw [← Nat.add_assoc, Nat.add_right_comm]
            exact hturns i (Nat.lt_of_succ_lt_succ hi)
      · rwa [List.length_cons, ← Nat.add_assoc, Nat.add_right_comm]

/-- **A pass.** From a new order to the next one every member that may be probed has one turn. -/
theorem pass (htable : ∀ n, c.table n = m) (hm : m.Distinct) (hsome : m.pingable ≠ [])
    (h : c.Redraws n) :
    ((List.range m.pingable.length).map fun i => c.target (n + i)).Perm (m.pingable.map some) ∧
      c.Redraws (n + m.pingable.length) := by
  have hgoes := c.goes n
  rw [htable] at hgoes
  have hnone : scan m (c.rotation n).order = none := htable n ▸ h
  generalize htarget : c.target n = target, hnext : c.rotation (n + 1) = r' at hgoes
  -- at a redraw the first target comes from the fresh order, and the rest of it is drained
  cases hgoes with
  | onward hscan => exact nomatch hnone.symm.trans hscan
  | nobody _ hdrawn hscan _ =>
      exact absurd (((Goes.nobody hnone hdrawn hscan hdrawn).eq_none_iff hm).mp rfl) hsome
  | @afresh drawn rest row _ hdrawn hscan =>
      have hperm := turns_perm hm hdrawn
      have hturns := (turns_of_scan hscan).1
      obtain ⟨hdrain, hlast⟩ := drain htable (show turns m (c.rotation (n + 1)).order = turns m rest by
        rw [hnext])
      have hlength : m.pingable.length = (turns m rest).length + 1 := by
        rw [← hperm.length_eq, hturns, List.length_cons]
      refine ⟨?_, ?_⟩
      · refine List.Perm.trans (List.Perm.of_eq ?_) (hperm.map some)
        refine List.ext_getElem (by simp [hperm.length_eq]) ?_
        intro i hi _
        rw [List.length_map, List.length_range, hlength] at hi
        simp only [List.getElem_map, List.getElem_range, hturns]
        cases i with
        | zero => exact htarget
        | succ i =>
            have hlt : i < (turns m rest).length := Nat.lt_of_succ_lt_succ hi
            rw [← Nat.add_assoc, Nat.add_right_comm, (hdrain i hlt).1, List.getElem?_eq_getElem hlt]
            rfl
      · rwa [hlength, ← Nat.add_assoc, Nat.add_right_comm]

/-- The first new order comes when what was left at first is through. -/
theorem exists_first (htable : ∀ n, c.table n = m) :
    ∃ first ≤ c.first.order.length, c.Redraws first ∧ ∀ n < first, ¬c.Redraws n := by
  obtain ⟨hdrain, hlast⟩ := drain (n := 0) htable rfl
  simp only [Nat.zero_add] at hdrain hlast
  exact ⟨_, List.length_filterMap_le _ _, hlast, fun n hn => (hdrain n hn).2⟩

/-- From there on a new order comes after as many calls as there are members to probe. -/
theorem redraws_add_mul (htable : ∀ n, c.table n = m) (hm : m.Distinct) (hsome : m.pingable ≠ [])
    (h : c.Redraws n) (passes : ℕ) : c.Redraws (n + passes * m.pingable.length) := by
  induction passes with
  | zero => rwa [Nat.zero_mul]
  | succ passes ih =>
      rw [Nat.succ_mul, ← Nat.add_assoc]
      exact (pass htable hm hsome ih).2

/-- A stretch of calls that is one short of two passes holds a whole one. -/
theorem exists_target (htable : ∀ n, c.table n = m) (hm : m.Distinct) {first : ℕ}
    (h : c.Redraws first) (hn : first ≤ n) (hrow : row ∈ m.pingable) :
    ∃ i < 2 * m.pingable.length - 1, c.target (n + i) = some row := by
  have hpos : 0 < m.pingable.length := List.length_pos_of_mem hrow
  have hsome : m.pingable ≠ [] := List.ne_nil_of_mem hrow
  -- the first pass that begins at call `n` or after it
  obtain ⟨start, hstart, hle, hlt⟩ : ∃ start, c.Redraws start ∧ n ≤ start ∧
      start < n + m.pingable.length := by
    generalize hp : m.pingable.length = p at hpos
    refine ⟨first + (n - first + p - 1) / p * p, hp ▸ redraws_add_mul htable hm hsome h _, ?_, ?_⟩
    · have := Nat.lt_div_mul_add (a := n - first + p - 1) hpos
      omega
    · have := Nat.div_mul_le_self (n - first + p - 1) p
      omega
  have hmem := (pass htable hm hsome hstart).1.mem_iff.mpr (List.mem_map_of_mem (f := some) hrow)
  obtain ⟨k, hk, htarget⟩ := List.mem_map.mp hmem
  have hk := List.mem_range.mp hk
  refine ⟨start - n + k, by omega, ?_⟩
  rwa [show n + (start - n + k) = start + k by omega]

/-! ## Tables that change -/

/-- After a new order no address stands twice in what is left. -/
theorem nodup_order (hdistinct : ∀ n, (c.table n).Distinct) {k : ℕ} (hk : c.Redraws k) (hle : k ≤ n) :
    (c.rotation n).order.Nodup ∨ c.Redraws n := by
  induction hle with
  | refl => exact Or.inr hk
  | step hle ih => exact Or.inl ((c.goes _).spends (hdistinct _) ih).1

/-- While no new order comes, what is left only gets less. -/
theorem order_subset {i j : ℕ} (hle : i ≤ j) (hnone : ∀ k, i ≤ k → k < j → ¬c.Redraws k) :
    (c.rotation j).order ⊆ (c.rotation i).order := by
  induction hle with
  | refl => exact List.Subset.refl _
  | @step j hle ih =>
      refine List.Subset.trans ?_ (ih fun k hk hlt => hnone k hk (Nat.lt_succ_of_lt hlt))
      obtain ⟨row, -, hscan⟩ := scan_of_not_redraws (hnone j hle (Nat.lt_succ_self j))
      obtain ⟨-, passed, horder⟩ := turns_of_scan hscan
      rw [horder]
      exact fun x hx => List.mem_append_right _ (List.mem_cons_of_mem _ hx)

/-- Between two new orders nobody has two turns. -/
theorem target_ne {i j k : ℕ} {a b : Member} (hdistinct : ∀ n, (c.table n).Distinct)
    (hk : c.Redraws k) (hki : k ≤ i) (hij : i < j) (hnone : ∀ l, i < l → l ≤ j → ¬c.Redraws l)
    (ha : c.target i = some a) (hb : c.target j = some b) : a.address ≠ b.address := by
  have hpassed := ((c.goes i).spends (hdistinct i) (nodup_order hdistinct hk hki)).2 a ha
  obtain ⟨row, htarget, hscan⟩ := scan_of_not_redraws (hnone j hij (Nat.le_refl j))
  obtain rfl : row = b := Option.some.inj (htarget.symm.trans hb)
  obtain ⟨-, passed, horder⟩ := turns_of_scan hscan
  have hmem : row.address ∈ (c.rotation j).order := by
    rw [horder]
    exact List.mem_append_right _ List.mem_cons_self
  have hsubset := order_subset (c := c) (i := i + 1) hij fun l hl hlt => hnone l hl (by omega)
  rintro heq
  exact hpassed (hsubset (heq ▸ hmem))

end

end Calls

/-- **Probing goes round.** Whatever order is left at first, whatever the calls draw, and whatever tables
    they see, each with one row for each address (`Membership.Reached.distinct`), a call picks nobody
    exactly where its table has nobody to probe, and else picks one of those it has. From one new order
    to the next nobody is picked twice, however the table changes. While the table stays as it is, a new
    order comes after what was left of the old one, and from then on the calls fall into passes of as
    many calls as there are members to probe: each pass begins with a new order and picks everybody
    once. So two passes less one call pick everybody, wherever they begin. -/
theorem probing_goes_round (c : Calls) (hdistinct : ∀ n, (c.table n).Distinct) :
    (∀ n, c.target n = none ↔ (c.table n).pingable = []) ∧
      (∀ n row, c.target n = some row → row ∈ (c.table n).pingable) ∧
      (∀ i j k a b, c.Redraws k → k ≤ i → i < j → (∀ l, i < l → l ≤ j → ¬c.Redraws l) →
        c.target i = some a → c.target j = some b → a.address ≠ b.address) ∧
      ∀ m, (∀ n, c.table n = m) → m.pingable ≠ [] →
        ∃ first ≤ c.first.order.length, c.Redraws first ∧ (∀ n < first, ¬c.Redraws n) ∧
          (∀ pass, c.Redraws (first + pass * m.pingable.length) ∧
            ((List.range m.pingable.length).map fun i =>
              c.target (first + pass * m.pingable.length + i)).Perm (m.pingable.map some)) ∧
          ∀ n ≥ first, ∀ row ∈ m.pingable,
            ∃ i < 2 * m.pingable.length - 1, c.target (n + i) = some row := by
  refine ⟨?_, ?_, ?_, ?_⟩
  · exact fun n => (c.goes n).eq_none_iff (hdistinct n)
  · intro n row htarget
    have hgoes := c.goes n
    rw [htarget] at hgoes
    exact hgoes.mem_pingable
  · exact fun i j k a b hk hki hij hnone => Calls.target_ne hdistinct hk hki hij hnone
  · intro m htable hsome
    have hm : m.Distinct := htable 0 ▸ hdistinct 0
    obtain ⟨first, hle, hfirst, hbefore⟩ := Calls.exists_first htable
    refine ⟨first, hle, hfirst, hbefore, fun pass => ?_, fun n hn row hrow => ?_⟩
    · have hpass := Calls.redraws_add_mul htable hm hsome hfirst pass
      exact ⟨hpass, (Calls.pass htable hm hsome hpass).1⟩
    · exact Calls.exists_target htable hm hfirst hn hrow

/-- Of what was left of an order, one member is faulty and one has no row. Three members may be probed,
    and the second call draws a new order for them. -/
theorem probing_goes_round_stale_order :
    let a : Member := ⟨"a", .alive, 1⟩
    let b : Member := ⟨"b", .suspect, 1⟩
    let d : Member := ⟨"d", .alive, 1⟩
    let m : Membership :=
      { Membership.empty "local" hash32 .none with
        rows := [⟨"c", .faulty, 1⟩, a, ⟨"local", .alive, 1⟩, d, b] }
    let c : Calls := ⟨⟨["c", "gone", "a"]⟩, fun _ => m, fun n => ⟨[2 * n, n]⟩⟩
    (∀ n, (c.table n).Distinct) ∧ m.pingable = [a, d, b] ∧ c.target 0 = some a ∧
      c.Redraws 1 ∧ ¬c.Redraws 2 ∧ ¬c.Redraws 3 ∧
      (∀ n, c.target n ≠ none) ∧
      (∀ first second, c.target 2 = some first → c.target 3 = some second →
        first.address ≠ second.address) ∧
      ∃ first ≤ 3, ∀ n ≥ first, ∀ row ∈ m.pingable, ∃ i < 5, c.target (n + i) = some row := by
  intro a b d m c
  have hdistinct : ∀ n, (c.table n).Distinct := fun _ => by
    show (m.rows.map Member.address).Nodup
    decide
  have hpingable : m.pingable = [a, d, b] := by decide
  have hredraws : c.Redraws 1 := by decide +kernel
  have hsecond : ¬c.Redraws 2 := by decide +kernel
  have hthird : ¬c.Redraws 3 := by decide +kernel
  obtain ⟨hnone, -, htwice, hpasses⟩ := probing_goes_round c hdistinct
  refine ⟨hdistinct, hpingable, by decide +kernel, hredraws, hsecond, hthird, ?_, ?_, ?_⟩
  · intro n htarget
    exact nomatch hpingable.symm.trans ((hnone n).mp htarget)
  · intro first second hfirst hlast
    refine htwice 2 3 1 first second hredraws (by decide) (by decide) ?_ hfirst hlast
    intro l hl hle
    rwa [show l = 3 by omega]
  · obtain ⟨first, hle, -, -, -, hcover⟩ := hpasses m (fun _ => rfl) (hpingable ▸ nofun)
    exact ⟨first, hle, fun n hn row hrow => hcover n hn row hrow⟩

end Rotation

end GossipRing
