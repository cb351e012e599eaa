import GossipRing.Node
import GossipRing.Proofs.RingPositions
import GossipRing.Proofs.TableReports

/-!
# The ring follows the table

Toward: a node routes keys to the members it takes to be there. The ring only hears of the claims
that took effect, batch by batch, and is never rebuilt from the table.

* **`Node.Op`**, **`Node.run`** — the operations on a node's table, in any order, each with its own
  reading of the clocks. A run stops where no incarnation is left.
* **`Node.Routed`** — the declared servers are the addresses with an alive or suspect row, and the
  ring came about by batches over addresses that have rows. Every completed operation keeps this
  (`Routed.spread`), and so does every run (`Routed.run`).
* **`declared_iff_serves`** — the same read off the rows, with what it says about look-ups.
* **`routing_determined`** — the servers that are declared, and the rows of a node, determine every
  look-up, whatever the histories.
-/

namespace GossipRing

namespace Membership

/-- The addresses with a row. -/
def addresses (m : Membership) : Set String := {a | (m.row? a).isSome}

/-- What the row of an address says about owning positions, if there is a row. -/
def pingableAt (m : Membership) (address : String) : Option Bool :=
  (m.row? address).map fun row => row.status.isPingable

/-- The address has a row that is alive or suspect. -/
def Serves (m : Membership) (address : String) : Prop :=
  ∃ row ∈ m.rows, row.address = address ∧ (row.status = .alive ∨ row.status = .suspect)

theorem isPingable_iff {status : Status} :
    status.isPingable = true ↔ status = .alive ∨ status = .suspect := by
  cases status <;> decide

/-- With one row per address, an address serves exactly when its row is pingable. -/
theorem serves_iff {m : Membership} (h : m.Distinct) {address : String} :
    m.Serves address ↔ m.pingableAt address = some true := by
  rw [pingableAt, Option.map_eq_some_iff]
  constructor
  · rintro ⟨row, hmem, haddress, hstatus⟩
    exact ⟨row, (row?_eq_some_iff h).mpr ⟨hmem, haddress⟩, isPingable_iff.mpr hstatus⟩
  · rintro ⟨row, hrow, hstatus⟩
    obtain ⟨hmem, haddress⟩ := (row?_eq_some_iff h).mp hrow
    exact ⟨row, hmem, haddress, isPingable_iff.mp hstatus⟩

end Membership

namespace Node

/-! ## What spreading does to the ring -/

/-- The claims of a batch, sorted by what the rows of their addresses say. -/
theorem mem_sorted {m : Membership} {effects : List Change} {owns : Bool} {address : String} :
    address ∈ (effects.filter fun c => ownsPositions m c = some owns).map Change.address ↔
      address ∈ effects.map Change.address ∧ m.pingableAt address = some owns := by
  simp only [List.mem_map, List.mem_filter, decide_eq_true_eq]
  constructor
  · rintro ⟨c, ⟨hmem, howns⟩, rfl⟩
    exact ⟨⟨c, hmem, rfl⟩, howns⟩
  · rintro ⟨⟨c, hmem, rfl⟩, howns⟩
    exact ⟨c, ⟨hmem, howns⟩, rfl⟩

/-- On the ring go the changed addresses that are pingable now. -/
theorem mem_onRing {m : Membership} {effects : List Change} {address : String} :
    address ∈ onRing m effects ↔
      address ∈ effects.map Change.address ∧ m.pingableAt address = some true := mem_sorted

/-- Off the ring go the changed addresses that are not pingable any more. -/
theorem mem_offRing {m : Membership} {effects : List Change} {address : String} :
    address ∈ offRing m effects ↔
      address ∈ effects.map Change.address ∧ m.pingableAt address = some false := mem_sorted

theorem membership_spread (n : Node) (now : Moment) (effects : List Change) :
    (n.spread now effects).membership = n.membership := by
  rw [spread]
  split
  · rfl
  · rfl

/-- The batch that a spread passes on to the ring, none for an empty one. -/
def ringOps (m : Membership) (effects : List Change) : List Ring.Op :=
  if effects.isEmpty then [] else [.addRemove (onRing m effects) (offRing m effects)]

/-- Spreading effects runs their operations on the ring. -/
theorem ring_spread (n : Node) (now : Moment) (effects : List Change) :
    (n.spread now effects).ring = n.ring.run (ringOps n.membership effects) := by
  rw [spread, ringOps]
  split
  · rfl
  · rfl

/-- The batch speaks of the addresses of the effects only. -/
theorem mem_of_mem_ringOps {m : Membership} {effects : List Change} {op : Ring.Op} {a : String}
    (hop : op ∈ ringOps m effects) (ha : a ∈ op.names) : a ∈ effects.map Change.address := by
  rw [ringOps] at hop
  split at hop
  · exact absurd hop List.not_mem_nil
  · rw [List.mem_singleton.mp hop] at ha
    rcases List.mem_append.mp ha with ha | ha
    · exact (mem_onRing.mp ha).1
    · exact (mem_offRing.mp ha).1

/-- After a batch the ring declares what it declared, but for the addresses of the batch, which it
    declares as their rows say. -/
theorem mem_servers_spread {n : Node} {now : Moment} {effects : List Change} {address : String}
    (hrows : ∀ a ∈ effects.map Change.address, (n.membership.row? a).isSome) :
    address ∈ (n.spread now effects).ring.servers ↔
      if address ∈ effects.map Change.address then n.membership.pingableAt address = some true
      else address ∈ n.ring.servers := by
  rw [ring_spread, ringOps]
  cases effects with
  | nil => exact Iff.rfl
  | cons c rest =>
      show address ∈ (n.ring.addRemove (onRing n.membership (c :: rest))
        (offRing n.membership (c :: rest))).1.servers ↔ _
      rw [Ring.mem_servers_addRemove, mem_onRing, mem_offRing]
      by_cases hmem : address ∈ (c :: rest).map Change.address
      · -- a reported address has a row, so it is in exactly one of the two lists
        obtain ⟨row, hrow⟩ := Option.isSome_iff_exists.mp (hrows address hmem)
        have hpingable : n.membership.pingableAt address = some row.status.isPingable := by
          rw [Membership.pingableAt, hrow]
          rfl
        rw [if_pos hmem, hpingable]
        simp only [hmem, true_and]
        cases row.status.isPingable with
        | true => simp
        | false => simp
      · rw [if_neg hmem]
        simp only [hmem, false_and, false_or, not_false_eq_true, and_true]

/-- A new node is blank, and its settings are valid. -/
theorem createWith_eq_ok {n : Node} {hash : HashFunction} {address : String} {settings : Settings}
    {chance : Chance} (h : createWith hash address settings chance = .ok n) :
    settings.IsValid ∧ n =
      { address := address
        settings := settings
        membership := .empty address hash chance
        ring := .empty settings.replicaPoints.toNat hash
        piggyback := .empty settings.maxPiggybackCount
        suspicion := .empty address settings.suspicionTimeout
        rotation := .empty
        gossip := .stopped
        bootstrapped := false
        destroyed := false } := by
  rw [createWith, Settings.validate] at h
  cases hfault : settings.fault? with
  | some reason =>
      rw [hfault] at h
      cases h
  | none =>
      rw [hfault] at h
      exact ⟨hfault, (Except.ok.inj h).symm⟩

/-! ## The invariant -/

/-- The ring declares exactly the addresses with an alive or suspect row, and it came about from
    the empty ring by operations over addresses that have a row. -/
structure Routed (hash : HashFunction) (k : Nat) (n : Node) : Prop where
  distinct : n.membership.Distinct
  declared : ∀ a, a ∈ n.ring.servers ↔ n.membership.pingableAt a = some true
  history : ∃ ops, n.ring = (Ring.empty k hash).run ops ∧ Ring.Over n.membership.addresses ops

namespace Routed

variable {hash : HashFunction} {k : Nat} {n : Node}

/-- A new node declares nobody. -/
theorem createWith {address : String} {settings : Settings} {chance : Chance}
    (h : Node.createWith hash address settings chance = .ok n) :
    Routed hash settings.replicaPoints.toNat n := by
  obtain ⟨-, rfl⟩ := createWith_eq_ok h
  refine ⟨List.nodup_nil, ?_, [], rfl, ?_⟩
  · intro a
    exact iff_of_false List.not_mem_nil (Option.some_ne_none true).symm
  · intro op hop
    exact absurd hop List.not_mem_nil

/-- **What a table reports brings the ring up to date.** -/
theorem spread (h : Routed hash k n) {m : Membership} {effects : List Change} (now : Moment)
    (hreported : n.membership.Reported (.done m effects)) :
    Routed hash k ({ n with membership := m }.spread now effects) := by
  have hrecorded : ∀ a ∈ effects.map Change.address, (m.row? a).isSome :=
    fun _ ha => hreported.isSome_row? ha
  refine ⟨?_, ?_, ?_⟩
  · rw [membership_spread]
    exact hreported.distinct h.distinct
  · intro a
    rw [membership_spread, mem_servers_spread hrecorded]
    by_cases ha : a ∈ effects.map Change.address
    · rw [if_pos ha]
    · -- outside the batch neither the row nor what the ring declares has changed
      have hrow : m.pingableAt a = n.membership.pingableAt a :=
        congrArg (Option.map _) (hreported.row?_of_not_mem ha)
      rw [if_neg ha, hrow]
      exact h.declared a
  · obtain ⟨ops, hring, hover⟩ := h.history
    rw [membership_spread, ring_spread]
    refine ⟨ops ++ ringOps m effects, ?_, ?_⟩
    · show n.ring.run (ringOps m effects) = _
      rw [hring]
      exact List.foldl_append.symm
    · intro op hop a ha
      rcases List.mem_append.mp hop with hop | hop
      · -- rows are never deleted, so what the ring once heard of still has one
        exact hreported.isSome_row?_of_isSome (hover op hop a ha)
      · exact hrecorded a (mem_of_mem_ringOps hop ha)

end Routed

/-! ## Runs of a node -/

/-- An operation on a node's table. -/
inductive Op where
  | update (changes : List Change)
  | assert (address : String) (status : Status) (incarnation : UInt64)
  | adopt (snapshots : List Snapshot)
  | openGate
  deriving DecidableEq, Repr

/-- What an operation does at some moment, and the claims that took effect. -/
def Op.apply (now : Moment) (n : Node) : Op → Attempt Node (List Change)
  | update changes => n.update now changes
  | assert address status incarnation => n.assert now address status incarnation
  | adopt snapshots => .done (n.adopt now snapshots).1 (n.adopt now snapshots).2
  | openGate => n.openGate now

/-- Operations one after the other, each at its moment. -/
def run (n : Node) : List (Moment × Op) → Attempt Node Unit
  | [] => .done n ()
  | (now, op) :: rest => (op.apply now n).andThen fun n _ => run n rest

/-- Settling an outcome that the table reported. -/
theorem settle_cases {n : Node} {now : Moment} {outcome : Attempt Membership (List Change)}
    (hreported : n.membership.Reported outcome) :
    (∃ m effects, n.membership.Reported (.done m effects) ∧
      n.settle now outcome = .done ({ n with membership := m }.spread now effects) effects) ∨
    (∃ m, m.localIncarnation = Membership.lastIncarnation ∧
      n.settle now outcome = .exhausted { n with membership := m }) := by
  cases outcome with
  | done m effects => exact Or.inl ⟨m, effects, hreported, rfl⟩
  | exhausted m => exact Or.inr ⟨m, hreported, rfl⟩

/-- Every operation either spreads what the table reports, or stops at the largest incarnation. -/
theorem Op.apply_cases (now : Moment) (n : Node) (op : Op) :
    (∃ m effects, n.membership.Reported (.done m effects) ∧
      op.apply now n = .done ({ n with membership := m }.spread now effects) effects) ∨
    (∃ m, m.localIncarnation = Membership.lastIncarnation ∧
      op.apply now n = .exhausted { n with membership := m }) := by
  cases op with
  | update changes =>
      exact settle_cases (Membership.reported_update n.membership now.wall changes false)
  | assert address status incarnation =>
      exact settle_cases
        (Membership.reported_assert n.membership now.wall address status incarnation)
  | adopt snapshots =>
      exact Or.inl ⟨_, _, Membership.reported_adopt n.membership snapshots, rfl⟩
  | openGate => exact settle_cases (Membership.reported_openGate n.membership now.wall)

/-- **A completed operation brings the ring up to date.** -/
theorem Routed.apply {hash : HashFunction} {k : Nat} {n n' : Node} {now : Moment} {op : Op}
    {effects : List Change} (h : Routed hash k n) (happly : op.apply now n = .done n' effects) :
    Routed hash k n' := by
  rcases op.apply_cases now n with ⟨m, effects', hreported, hdone⟩ | ⟨m, _, hstop⟩
  · rw [hdone] at happly
    obtain ⟨rfl, -⟩ := Attempt.done.inj happly
    exact h.spread now hreported
  · rw [hstop] at happly
    exact nomatch happly

/-- An operation that stops leaves the ring as it was, and the node at the largest incarnation. -/
theorem Op.ring_of_exhausted {n n' : Node} {now : Moment} {op : Op}
    (happly : op.apply now n = .exhausted n') :
    n'.ring = n.ring ∧ n'.membership.localIncarnation = Membership.lastIncarnation := by
  rcases op.apply_cases now n with ⟨m, effects', _, hdone⟩ | ⟨m, hlast, hstop⟩
  · rw [hdone] at happly
    exact nomatch happly
  · rw [hstop] at happly
    obtain rfl := Attempt.exhausted.inj happly
    exact ⟨rfl, hlast⟩

/-- **Every completed run leaves the ring up to date.** -/
theorem Routed.run {hash : HashFunction} {k : Nat} {ops : List (Moment × Op)} {n n' : Node}
    (h : Routed hash k n) (hrun : n.run ops = .done n' ()) : Routed hash k n' := by
  induction ops generalizing n with
  | nil =>
      obtain ⟨rfl, -⟩ := Attempt.done.inj hrun
      exact h
  | cons entry rest ih =>
      obtain ⟨now, op⟩ := entry
      rw [Node.run] at hrun
      obtain ⟨n₁, effects, happly, hrest⟩ := Attempt.andThen_eq_done hrun
      exact ih (h.apply happly) hrest

/-- A run that stops does so in one of its operations, after completing those before. -/
theorem run_eq_exhausted {ops : List (Moment × Op)} {n n' : Node}
    (hrun : n.run ops = .exhausted n') :
    ∃ first now op rest before, ops = first ++ (now, op) :: rest ∧
      n.run first = .done before () ∧ op.apply now before = .exhausted n' := by
  induction ops generalizing n with
  | nil => exact nomatch hrun
  | cons entry rest ih =>
      obtain ⟨now, op⟩ := entry
      rw [run] at hrun
      cases happly : op.apply now n with
      | exhausted n₁ =>
          rw [happly, Attempt.andThen_exhausted] at hrun
          obtain rfl := Attempt.exhausted.inj hrun
          exact ⟨[], now, op, rest, n, rfl, rfl, happly⟩
      | done n₁ effects =>
          rw [happly, Attempt.andThen_done] at hrun
          -- the stop is in the rest of the run, after this operation too
          obtain ⟨first, now', op', rest', before, rfl, hfirst, hstop⟩ := ih hrun
          refine ⟨(now, op) :: first, now', op', rest', before, rfl, ?_, hstop⟩
          rw [run, happly, Attempt.andThen_done]
          exact hfirst

/-- The ring says what the table says: the declared servers are the alive and suspect members, of
    whom the table has one row each, and every look-up answers with such a member. -/
structure Faithful (n : Node) : Prop where
  distinct : n.membership.Distinct
  declared : ∀ a, a ∈ n.ring.servers ↔ n.membership.Serves a
  lookup : ∀ key a, n.ring.lookup key = some a → n.membership.Serves a
  lookupMany : ∀ key count, ∀ a ∈ n.ring.lookupMany key count, n.membership.Serves a

theorem Routed.sound {hash : HashFunction} {k : Nat} {n : Node} (h : Routed hash k n) :
    n.ring.Sound := by
  obtain ⟨ops, hring, -⟩ := h.history
  rw [hring]
  exact (Ring.Sound.empty k hash).run ops

/-- A routed node is faithful: whom a lookup names serves by the table. -/
theorem Routed.faithful {hash : HashFunction} {k : Nat} {n : Node} (h : Routed hash k n) :
    Faithful n := by
  have hsound := h.sound
  have hserves : ∀ a, a ∈ n.ring.servers ↔ n.membership.Serves a := by
    intro a
    rw [h.declared, Membership.serves_iff h.distinct]
  refine ⟨h.distinct, hserves, ?_, ?_⟩
  · intro key a hlookup
    exact (hserves a).mp (hsound.lookup_mem hlookup)
  · intro key count a ha
    exact (hserves a).mp (hsound.lookupMany_subset key count ha)

/-- **After every run of a new node the ring declares the alive and suspect members.**

    A run that is not completed stops at the largest incarnation, inside an operation that then
    leaves the ring as it was before it; there the ring answers for the table before it. -/
theorem declared_iff_serves {hash : HashFunction} {address : String} {settings : Settings}
    {chance : Chance} {node : Node}
    (hnode : Node.createWith hash address settings chance = .ok node)
    (ops : List (Moment × Op)) :
    (∀ n, node.run ops = .done n () → Faithful n) ∧
    (∀ n, node.run ops = .exhausted n →
      n.membership.localIncarnation = Membership.lastIncarnation ∧
      ∃ first now op rest before, ops = first ++ (now, op) :: rest ∧
        node.run first = .done before () ∧ op.apply now before = .exhausted n ∧
        Faithful before ∧ n.ring = before.ring) := by
  have hstart := Routed.createWith hnode
  constructor
  · intro n hrun
    exact (hstart.run hrun).faithful
  · intro n hrun
    obtain ⟨first, now, op, rest, before, hops, hfirst, hstop⟩ := run_eq_exhausted hrun
    obtain ⟨hring, hlast⟩ := op.ring_of_exhausted hstop
    exact ⟨hlast, first, now, op, rest, before, hops, hfirst, hstop,
      (hstart.run hfirst).faithful, hring⟩

/-- With two positions for each server: `a` joins alone, hears of `b` and `c`, then that `c` is
    suspect and that `b` failed. Its ring declares `a` and `c`. -/
theorem declared_iff_serves_after_failure :
    ∃ node n,
      Node.createWith hash32 "a" { Settings.default with replicaPoints := 2 } .none = .ok node ∧
      node.run
        [(⟨7, 0⟩, .assert "a" .alive 1), (⟨7, 0⟩, .openGate),
          (⟨8, 1⟩, .update [⟨"b", .alive, 3, "b", 3, 8⟩, ⟨"c", .alive, 4, "c", 4, 8⟩]),
          (⟨9, 2⟩, .update [⟨"c", .suspect, 4, "b", 3, 9⟩, ⟨"b", .faulty, 3, "c", 4, 9⟩])] =
        .done n () ∧
      n.ring.servers = ["a", "c"] ∧ Faithful n := by
  have hnode : Node.createWith hash32 "a" { Settings.default with replicaPoints := 2 } .none =
      .ok _ := rfl
  refine ⟨_, _, hnode, Attempt.eq_done_of_result? ?_, ?_, ?_⟩
  · decide +kernel
  · decide +kernel
  · exact (declared_iff_serves hnode _).1 _ (Attempt.eq_done_of_result? (by decide +kernel))

/-- **A stop leaves the ring behind the table.** The node `a` believes that it is alive at the largest
    incarnation. Then one batch says that `d` failed and that `a` is suspect, and stops at the second
    claim: the row of `d` is changed by then, and the ring is not. A run that goes on from there does
    not mend this, and a look-up answers with `d`. -/
theorem stop_leaves_ring_behind :
    ∃ node n n',
      Node.createWith hash32 "a" { Settings.default with replicaPoints := 2 } .none = .ok node ∧
      node.run
        [(⟨7, 0⟩, .assert "a" .alive 1), (⟨7, 0⟩, .openGate),
          (⟨8, 1⟩, .update [⟨"a", .alive, 18446744073709551615, "b", 5, 8⟩,
            ⟨"d", .alive, 3, "d", 3, 8⟩]),
          (⟨9, 2⟩, .update [⟨"d", .faulty, 3, "b", 5, 9⟩,
            ⟨"a", .suspect, 18446744073709551615, "b", 5, 9⟩])] = .exhausted n ∧
      n.run [(⟨10, 3⟩, .update [⟨"c", .alive, 4, "c", 4, 10⟩])] = .done n' () ∧
      n'.membership.row? "d" = some ⟨"d", .faulty, 3⟩ ∧ n'.ring.servers = ["a", "c", "d"] ∧
      "d" ∈ n'.ring.lookupMany "key" 3 ∧ ¬ n'.membership.Serves "d" := by
  refine ⟨_, _, _, rfl, Attempt.eq_exhausted_of_result? ?_, Attempt.eq_done_of_result? ?_, ?_, ?_, ?_, ?_⟩
  · decide +kernel
  · decide +kernel
  · decide +kernel
  · decide +kernel
  · decide +kernel
  · unfold Membership.Serves
    decide +kernel

/-! ## Nodes that route alike -/

/-- A node that a new one with this hash and `k` points for each server becomes in some run. -/
def Reached (hash : HashFunction) (k : Nat) (n : Node) : Prop :=
  ∃ address settings chance node ops, settings.replicaPoints.toNat = k ∧
    Node.createWith hash address settings chance = .ok node ∧ node.run ops = .done n ()

theorem Reached.routed {hash : HashFunction} {k : Nat} {n : Node} (h : Reached hash k n) :
    Routed hash k n := by
  obtain ⟨address, settings, chance, node, ops, rfl, hnode, hrun⟩ := h
  exact (Routed.createWith hnode).run hrun

namespace Routed

variable {hash : HashFunction} {k : Nat} {N : Set String} {n n' : Node}

/-- Servers of a node that are apart own all their points. -/
theorem full (h : Routed hash k n) (apart : Ring.PointsApart hash k N)
    (hN : n.membership.addresses ⊆ N) : Ring.Full hash k N n.ring := by
  obtain ⟨ops, hring, hover⟩ := h.history
  rw [hring]
  exact (Ring.Full.empty hash k N).run apart fun op hop s hs => hN (hover op hop s hs)

/-- Nodes with the same rows declare the same servers. -/
theorem mem_servers_congr {k' : Nat} (h : Routed hash k n) (h' : Routed hash k' n')
    (hrows : ∀ row, row ∈ n.membership.rows ↔ row ∈ n'.membership.rows) (s : String) :
    s ∈ n.ring.servers ↔ s ∈ n'.ring.servers := by
  rw [h.declared, h'.declared, ← Membership.serves_iff h.distinct,
    ← Membership.serves_iff h'.distinct, Membership.Serves, Membership.Serves]
  simp only [hrows]

/-- Nodes with the same rows give the same answers. -/
theorem lookup_congr (h : Routed hash k n) (h' : Routed hash k n')
    (apart : Ring.PointsApart hash k N) (hN : n.membership.addresses ⊆ N)
    (hrows : ∀ row, row ∈ n.membership.rows ↔ row ∈ n'.membership.rows) (key : String) :
    n.ring.lookup key = n'.ring.lookup key ∧
      ∀ count, n.ring.lookupMany key count = n'.ring.lookupMany key count := by
  have haddresses : n'.membership.addresses = n.membership.addresses := by
    ext a
    show (n'.membership.row? a).isSome ↔ (n.membership.row? a).isSome
    rw [Membership.isSome_row?_iff, Membership.isSome_row?_iff, List.mem_map, List.mem_map]
    simp only [hrows]
  have hfull' : Ring.Full hash k N n'.ring := h'.full apart (haddresses ▸ hN)
  exact (h.full apart hN).lookup_congr hfull' (h.mem_servers_congr h' hrows) key

end Routed

/-- **The declared servers determine the ring, and the rows of a node its routing.**

    Over servers whose points never meet, every history leaves exactly the points of the declared
    servers, a look-up finds the owner of the next of them clockwise, and any other history that
    declares the same servers gives the same answers. So do two nodes with the same rows. -/
theorem routing_determined {hash : HashFunction} {k : Nat} {N : Set String} (hk : 1 ≤ k)
    (apart : Ring.PointsApart hash k N) {ops : List Ring.Op} (hover : Ring.Over N ops)
    {r : Ring} (hr : r = (Ring.empty k hash).run ops) :
    (∀ s, s ∈ r.servers ↔ s ∈ Ring.declared ops) ∧
    r.positions.Ordered ∧
    (∀ p s, (p, s) ∈ r.positions.toList ↔
      s ∈ Ring.declared ops ∧ ∃ i < k, hash (s ++ toString i) = p) ∧
    (∀ key s, r.lookup key = some s ↔
      ∃ p, (p, s) ∈ r.positions.toList ∧ Ring.IsNext r.taken (hash key) p) ∧
    (∀ key, r.lookup key = none ↔ Ring.declared ops = ∅) ∧
    (∀ N' ops', Ring.PointsApart hash k N' → Ring.Over N' ops' →
      Ring.declared ops' = Ring.declared ops → ∀ key,
        r.lookup key = ((Ring.empty k hash).run ops').lookup key ∧
        ∀ count, r.lookupMany key count = ((Ring.empty k hash).run ops').lookupMany key count) ∧
    (∀ n n', Reached hash k n → Reached hash k n' → n.membership.addresses ⊆ N →
      (∀ row, row ∈ n.membership.rows ↔ row ∈ n'.membership.rows) → ∀ key,
        n.ring.lookup key = n'.ring.lookup key ∧
        ∀ count, n.ring.lookupMany key count = n'.ring.lookupMany key count) := by
  subst hr
  have hfull : Ring.Full hash k N ((Ring.empty k hash).run ops) :=
    (Ring.Full.empty hash k N).run apart hover
  have hservers := Ring.mem_servers_run k hash ops
  -- what stands on the ring is what can be read at its positions
  have hentry : ∀ p s, (p, s) ∈ ((Ring.empty k hash).run ops).positions.toList ↔
      ((Ring.empty k hash).run ops).positions.get? p = some s :=
    fun p s => (RedBlack.Tree.get?_eq_some_iff hfull.sound.ordered p s).symm
  refine ⟨hservers, hfull.sound.ordered, ?_, ?_, ?_, ?_, ?_⟩
  · intro p s
    rw [hentry, hfull.get?_eq_some_iff, hservers, Ring.mem_points, hfull.replicaPoints_eq,
      hfull.hash_eq]
  · intro key s
    rw [Ring.lookup_eq_some_iff hfull.sound, hfull.hash_eq]
  · intro key
    rw [hfull.lookup_eq_none_iff hk, List.eq_nil_iff_forall_not_mem,
      Finset.eq_empty_iff_forall_notMem]
    simp only [hservers]
  · intro N' ops' apart' hover' hsame key
    have hfull' : Ring.Full hash k N' ((Ring.empty k hash).run ops') :=
      (Ring.Full.empty hash k N').run apart' hover'
    refine hfull.lookup_congr hfull' ?_ key
    intro s
    rw [hservers, Ring.mem_servers_run, hsame]
  · intro n n' hn hn' hN hrows key
    exact hn.routed.lookup_congr hn'.routed apart hN hrows key

/-- A server that came and went leaves no trace: the other answers as if it had been alone. -/
theorem routing_determined_beta_alone :
    1 ≤ 3 ∧ Ring.PointsApart hash32 3 {s | s ∈ ["alpha", "beta"]} ∧
    Ring.Over {s | s ∈ ["alpha", "beta"]}
      [.add "alpha", .addRemove ["beta"] [], .remove "alpha"] ∧
    ∀ key, ((Ring.empty 3 hash32).run
        [.add "alpha", .addRemove ["beta"] [], .remove "alpha"]).lookup key =
      ((Ring.empty 3 hash32).run [.add "beta"]).lookup key := by
  have apart : Ring.PointsApart hash32 3 {s | s ∈ ["alpha", "beta"]} := by
    show ∀ s ∈ ["alpha", "beta"], ∀ t ∈ ["alpha", "beta"], ∀ i < 3, ∀ j < 3,
      hash32 (s ++ toString i) = hash32 (t ++ toString j) → s = t ∧ i = j
    decide +kernel
  have hover : Ring.Over {s | s ∈ ["alpha", "beta"]}
      [.add "alpha", .addRemove ["beta"] [], .remove "alpha"] := by
    show ∀ op ∈ [Ring.Op.add "alpha", .addRemove ["beta"] [], .remove "alpha"],
      ∀ s ∈ op.names, s ∈ ["alpha", "beta"]
    decide +kernel
  have halone : Ring.Over {s | s ∈ ["alpha", "beta"]} [.add "beta"] := by
    show ∀ op ∈ [Ring.Op.add "beta"], ∀ s ∈ op.names, s ∈ ["alpha", "beta"]
    decide +kernel
  have hsame : Ring.declared [.add "beta"] =
      Ring.declared [.add "alpha", .addRemove ["beta"] [], .remove "alpha"] := by
    decide +kernel
  refine ⟨by decide, apart, hover, ?_⟩
  intro key
  obtain ⟨-, -, -, -, -, hsecond, -⟩ := routing_determined (by decide) apart hover rfl
  exact (hsecond _ _ apart halone hsame key).1

end Node

end GossipRing
