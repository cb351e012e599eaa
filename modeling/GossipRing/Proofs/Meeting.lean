import GossipRing.Proofs.Attestation
import GossipRing.Proofs.ClosedGate
import GossipRing.Proofs.Cluster
import GossipRing.Proofs.Joining
import GossipRing.Proofs.Silence
import GossipRing.Proofs.WireRoundTrip

/-!
# Two nodes that join each other

Toward: once both have joined they agree, however their joins overlapped. What a node learns of the
other one comes from its answer, or from its request: before the node has joined itself a request
waits behind the gate, and afterwards it is applied.

* **`Membership.KnowsOf`** — a table records that a member is at some incarnation, or holds that back.
  Being told that the member is alive is enough (`knowsOf_of_assert`), and joining forgets nobody
  (`KnowsOf.completeJoin`).
* **`Meeting`** — two nodes, how far each of them has got, and all that was ever asked and answered.
  Nothing is taken away, so a request may be lost, or come late, or more than once. An answer is heard
  by a join that asked for it: no join hears what an earlier one asked.
* **`Meeting.Turn`** — what can happen next.
* **`Meeting.Sound`** — the invariant, with `Turn.sound` for one turn and `Reachable.sound` for every
  run. Whoever has heard an answer is known to the other node, at the incarnation it has.
* **`Meeting.both_joined_agree`** — the tables, their checksums, and the servers on the rings.
-/

namespace GossipRing

namespace Membership

variable {now : Clock} {m m' : Membership} {op : Op} {address : String} {inc : UInt64}
  {claims effects : List Change} {snapshots : List Snapshot} {c : Change}

/-! ## Whom a table knows of -/

/-- A row of the address, or a claim about it that is held back, is at this incarnation or a later
    one. -/
def KnowsOf (m : Membership) (address : String) (inc : UInt64) : Prop :=
  (∃ row, m.row? address = some row ∧ inc ≤ row.incarnation) ∨
    ∃ c ∈ m.gate.stash, c.address = address ∧ inc ≤ c.incarnation

/-- **The row is no older than a claim that its member is alive.** -/
theorem Applied.no_older_of_alive (h : Applied now m claims m' effects) (hc : c ∈ claims)
    (halive : c.status = .alive) (hnamed : ¬c.isMalformed) :
    ∃ row, m'.row? c.address = some row ∧ c.incarnation ≤ row.incarnation := by
  induction h with
  | nil => exact absurd hc List.not_mem_nil
  | @ignore now m _ _ _ _ hignores hrest ih =>
      rcases List.mem_cons.mp hc with rfl | hc
      · obtain ⟨hrejects, -⟩ := hignores.resolve_left hnamed
        cases hrow : m.row? c.address with
        | none => exact absurd ((accepts_iff_of_none hrow).mpr fun _ => halive) hrejects
        | some row =>
            rw [accepts_iff_of_some hrow, Precedence.overrides_iff_of_alive halive] at hrejects
            have hle : c.incarnation ≤ row.incarnation :=
              UInt64.not_lt.mp fun hlt => hrejects ⟨hlt, fun _ => Or.inl halive⟩
            obtain ⟨row', hrow', hle'⟩ := hrest.keeps _ _ hrow
            exact ⟨row', hrow', UInt64.le_trans hle hle'⟩
      · exact ih hc
  | @accept now m _ _ _ _ _ _ hrest ih =>
      rcases List.mem_cons.mp hc with rfl | hc
      · have hput : (m.put c.toMember).row? c.address = some c.toMember := by
          rw [row?_put]
          exact if_pos rfl
        exact hrest.keeps _ _ hput
      · exact ih hc
  | refute _ hrefutes _ _ ih =>
      rcases List.mem_cons.mp hc with rfl | hc
      · have hdown := hrefutes.2.1
        rw [halive] at hdown
        exact absurd hdown (by decide)
      · exact ih hc

/-- What waits behind the gate keeps waiting through any operation that respects the gate. -/
theorem Op.RespectsGate.stash_subset (hop : op.RespectsGate)
    (h : op.apply now m = .done m' effects) : m.gate.stash ⊆ m'.gate.stash := by
  have hupdate : ∀ {claims : List Change} {localAlive : Bool},
      m.update now claims localAlive = .done m' effects → m.gate.stash ⊆ m'.gate.stash := by
    intro claims localAlive hdone
    rcases gate_update hdone with hgate | ⟨-, rfl⟩
    · rw [hgate]
      exact List.Subset.refl _
    · exact List.subset_append_left _ _
  cases op with
  | update claims localAlive => exact hupdate h
  | assert address status incarnation => exact hupdate h
  | adopt snapshots => exact absurd hop id
  | openGate => exact absurd hop id

/-- A table goes on knowing of a member, from its rows or from the claims behind the gate. -/
theorem KnowsOf.apply (h : m.KnowsOf address inc) (hop : op.RespectsGate)
    (happly : op.apply now m = .done m' effects) : m'.KnowsOf address inc := by
  rcases h with ⟨row, hrow, hle⟩ | ⟨c, hc, habout⟩
  · obtain ⟨row', hrow', hle'⟩ := (hop.advances happly).keeps _ _ hrow
    exact Or.inl ⟨row', hrow', UInt64.le_trans hle hle'⟩
  · exact Or.inr ⟨c, hop.stash_subset happly hc, habout⟩

/-- An open gate holds nothing back. -/
theorem KnowsOf.row (h : m.KnowsOf address inc) (hready : m.isReady = true) :
    ∃ row, m.row? address = some row ∧ inc ≤ row.incarnation := by
  refine h.resolve_right fun ⟨c, hc, _⟩ => ?_
  rw [isReady] at hready
  cases hgate : m.gate with
  | closed stash =>
      rw [hgate] at hready
      cases hready
  | opened =>
      rw [hgate] at hc
      exact absurd hc List.not_mem_nil

/-- **A node that is told that a member is alive knows of it**, whether its gate is open or closed. -/
theorem knowsOf_of_assert (hnamed : address ≠ "") (hremote : address ≠ m.here)
    (h : (Op.assert address .alive inc).apply now m = .done m' effects) :
    m'.KnowsOf address inc := by
  have hclaim : ¬(m.ownClaim now address .alive inc).isMalformed :=
    fun hempty => hnamed (String.isEmpty_iff.mp hempty)
  cases hready : m.isReady with
  | false =>
      obtain ⟨rfl, -⟩ := Attempt.done.inj
        ((assert_of_closed hready fun hlocal => hremote hlocal.2).symm.trans h)
      refine Or.inr ⟨m.ownClaim now address .alive inc, List.mem_append_right _ ?_, rfl,
        UInt64.le_refl _⟩
      rw [List.mem_filter, Bool.eq_false_iff.mpr hclaim]
      exact ⟨List.mem_singleton_self _, rfl⟩
  | true =>
      rcases (Op.assert address .alive inc).apply_cases h with ⟨_, hadopt, -⟩ | ⟨m₁, happlied, halike⟩
      · cases hadopt
      · rw [Op.reaching, hready, Bool.true_or, if_pos rfl] at happlied
        obtain ⟨row, hrow, hle⟩ :=
          happlied.no_older_of_alive (List.mem_singleton_self _) rfl hclaim
        exact Or.inl ⟨row, (halike.row? address).trans hrow, hle⟩

/-! ## Joining a table -/

/-- The node has not joined: it knows nobody but itself, and holds back that others are alive. -/
structure Waiting (m : Membership) : Prop where
  closed : m.isReady = false
  secluded : m.Secluded
  remote : ∀ c ∈ m.gate.stash, c.address ≠ m.here
  alive : ∀ c ∈ m.gate.stash, c.status = .alive

namespace Waiting

/-- A table that waits goes on waiting as long as it is told of living peers only. -/
theorem apply (h : m.Waiting) (hop : op.RespectsGate) (happly : op.apply now m = .done m' effects)
    (htold : ∀ c ∈ op.told now m, c.address ≠ m.here ∧ c.status = .alive) : m'.Waiting where
  closed := (hop.advances happly).ready.trans h.closed
  secluded := (hop.advances happly).secluded h.closed h.secluded
  remote c hc := by
    rw [op.here_eq happly]
    exact (op.mem_stash_cases happly hc).elim (h.remote c) fun hmem => (htold c hmem).1
  alive c hc := (op.mem_stash_cases happly hc).elim (h.alive c) fun hmem => (htold c hmem).2

/-- **Nothing keeps it from joining**: no claim that is held back calls it down. -/
theorem exists_completeJoin (h : m.Waiting) (now : Clock) (snapshots : List Snapshot) :
    ∃ m' effects, m.completeJoin now snapshots = .done m' effects := by
  cases hjoin : m.completeJoin now snapshots with
  | done m' effects => exact ⟨m', effects, rfl⟩
  | exhausted m' =>
      by_cases hagreed : Snapshot.Agreed snapshots
      · obtain ⟨before, c, after, -, hstash, -, hrefutes, -⟩ :=
          completeJoin_eq_exhausted hagreed hjoin
        have hdown := hrefutes.2.1
        rw [h.alive c (hstash ▸ List.mem_append_right _ List.mem_cons_self)] at hdown
        exact absurd hdown (by decide)
      · cases (completeJoin_of_not_agreed h.closed hagreed now).symm.trans hjoin

/-- **Joining forgets nobody**, whether what was held back is merged or replayed. -/
theorem knowsOf_completeJoin (h : m.Waiting) (hknows : m.KnowsOf address inc)
    (hnamed : address ≠ "") (hremote : address ≠ m.here)
    (hjoin : m.completeJoin now snapshots = .done m' effects) : m'.KnowsOf address inc := by
  rcases hknows with ⟨row, hrow, -⟩ | ⟨c, hc, rfl, hle⟩
  · rw [h.secluded.row?_eq_none hremote] at hrow
    cases hrow
  · have hclaim : ¬c.isMalformed := fun hempty => hnamed (String.isEmpty_iff.mp hempty)
    suffices hnewer : ∃ row, m'.row? c.address = some row ∧ c.incarnation ≤ row.incarnation by
      obtain ⟨row, hrow, hle'⟩ := hnewer
      exact Or.inl ⟨row, hrow, UInt64.le_trans hle hle'⟩
    by_cases hagreed : Snapshot.Agreed snapshots
    · rw [completeJoin_of_agreed hagreed] at hjoin
      obtain ⟨m₁, happlied, rfl⟩ := applyBatch_eq_done hjoin
      rw [(alike_conclude m₁ effects).row?]
      exact happlied.no_older_of_alive hc (h.alive c hc) hclaim
    · rw [completeJoin_of_not_agreed h.closed hagreed] at hjoin
      obtain ⟨rfl, -⟩ := Attempt.done.inj hjoin
      exact adopted_no_older h.secluded hagreed (List.mem_append_right _ hc) hremote hclaim

/-- The node's own row is not in question. -/
theorem localRow?_completeJoin (h : m.Waiting)
    (hjoin : m.completeJoin now snapshots = .done m' effects) : m'.localRow? = m.localRow? := by
  have hopen : Op.openGate.apply now (m.adopt snapshots).1 = .done m' effects := hjoin
  rw [← localRow?_adopt m snapshots]
  refine Op.localRow?_eq hopen fun c hc => ?_
  rw [here_adopt]
  exact h.remote c ((m.stash_adopt_sublist snapshots).subset hc)

end Waiting

end Membership

namespace Node

variable {hash : HashFunction} {now : Moment} {n n' : Node} {effects : List Change}

/-! ## What a node keeps -/

/-- What holds of a node throughout: its table and its ring come about by operations on the table. -/
structure Sane (hash : HashFunction) (n : Node) : Prop where
  here : n.membership.here = n.address
  reached : n.membership.Reached
  hashes : n.membership.hash = hash
  routed : ∃ k, n.Routed hash k
  wanted : n.settings.joinSize ≠ 0

/-- The second node is the first one later. It has the same address, is at no smaller incarnation, and
    knows of everybody else of whom it knew. -/
structure Later (n n' : Node) : Prop where
  address : n'.address = n.address
  owns : ∀ {inc}, n.membership.Owns inc → n'.membership.Owns inc
  knows : ∀ {address inc}, address ≠ "" → address ≠ n.membership.here →
    n.membership.KnowsOf address inc → n'.membership.KnowsOf address inc

theorem Later.refl (n : Node) : Later n n := ⟨rfl, id, fun _ _ => id⟩

namespace Sane

/-- A node that was just created is sane: it is named as its table is, its rows are reached, and its
    ring belongs to them. -/
theorem createWith {address : String} {settings : Settings} {chance : Chance}
    (h : Node.createWith hash address settings chance = .ok n) : Sane hash n := by
  have hrouted := Routed.createWith h
  obtain ⟨hvalid, rfl⟩ := createWith_eq_ok h
  exact ⟨rfl, ⟨address, hash, chance, [], rfl⟩, rfl, ⟨_, hrouted⟩, hvalid.joinSize_ne_zero⟩

/-- Settling the outcome of an operation keeps a node sane. -/
theorem settle (h : Sane hash n) (op : Membership.Op)
    (hdone : n.settle now (op.apply now.wall n.membership) = .done n' effects) : Sane hash n' := by
  obtain ⟨k, hrouted⟩ := h.routed
  obtain ⟨m, happly, rfl⟩ := settle_eq_done hdone
  have hreported := op.reported now.wall n.membership
  rw [happly] at hreported
  refine ⟨?_, ?_, ?_, ⟨k, hrouted.spread now hreported⟩, ?_⟩
  · rw [membership_spread, address_spread]
    exact (op.here_eq happly).trans h.here
  · rw [membership_spread]
    exact h.reached.apply happly
  · rw [membership_spread]
    exact (op.hash_eq happly).trans h.hashes
  · rw [settings_spread]
    exact h.wanted

/-- Whether a bootstrap is under way does not matter. -/
theorem flag (h : Sane hash n) (bootstrapped : Bool) :
    Sane hash { n with bootstrapped := bootstrapped } := by
  obtain ⟨k, hrouted⟩ := h.routed
  exact ⟨h.here, h.reached, h.hashes, ⟨k, hrouted.distinct, hrouted.declared, hrouted.history⟩,
    h.wanted⟩

end Sane

/-- A node is later after an operation that respects the gate. -/
theorem later_of_settle (op : Membership.Op) (hop : op.RespectsGate)
    (hdone : n.settle now (op.apply now.wall n.membership) = .done n' effects) : n.Later n' := by
  obtain ⟨m, happly, rfl⟩ := settle_eq_done hdone
  refine ⟨address_spread _ _ _, ?_, ?_⟩
  · rw [membership_spread]
    exact op.owns happly
  · rw [membership_spread]
    exact fun _ _ hknows => hknows.apply hop happly

/-- The node says that somebody is alive. -/
theorem Sane.assert (h : Sane hash n) {address : String} {inc : UInt64}
    (hdone : n.assert now address .alive inc = .done n' effects) :
    Sane hash n' ∧ n.Later n' ∧ (n.membership.Waiting → n'.membership.Waiting) := by
  have hdone' : n.settle now ((Membership.Op.assert address .alive inc).apply now.wall n.membership) =
      .done n' effects := hdone
  have hop : (Membership.Op.assert address .alive inc).RespectsGate := trivial
  refine ⟨h.settle _ hdone', later_of_settle _ hop hdone', fun hwaits => ?_⟩
  obtain ⟨m, happly, rfl⟩ := settle_eq_done hdone'
  rw [membership_spread]
  refine hwaits.apply hop happly fun c hc => ?_
  rw [Membership.Op.told] at hc
  split at hc
  · exact absurd hc List.not_mem_nil
  · next hother =>
    obtain rfl := List.mem_singleton.mp hc
    exact ⟨fun hlocal => hother ⟨rfl, hlocal⟩, rfl⟩

/-- If it is somebody else, the node then knows of it, and its own row stays. -/
theorem Sane.assert_remote (h : Sane hash n) {address : String} {inc : UInt64}
    (hnamed : address ≠ "") (hremote : address ≠ n.address)
    (hdone : n.assert now address .alive inc = .done n' effects) :
    n'.membership.KnowsOf address inc ∧ n'.membership.isReady = n.membership.isReady ∧
      n'.membership.localRow? = n.membership.localRow? := by
  have hop : (Membership.Op.assert address .alive inc).RespectsGate := trivial
  obtain ⟨m, happly, rfl⟩ := settle_eq_done hdone
  have happly : (Membership.Op.assert address .alive inc).apply now.wall n.membership =
      .done m effects := happly
  have hother : address ≠ n.membership.here := h.here ▸ hremote
  rw [membership_spread]
  refine ⟨Membership.knowsOf_of_assert hnamed hother happly, (hop.advances happly).ready, ?_⟩
  refine Membership.Op.localRow?_eq happly fun c hc => ?_
  rw [Membership.Op.reaching] at hc
  split at hc
  · obtain rfl := List.mem_singleton.mp hc
    exact hother
  · exact absurd hc List.not_mem_nil

/-- A node that begins to bootstrap knows itself. -/
theorem Sane.beginBootstrap (h : Sane hash n) (hnamed : n.address ≠ "")
    (hdone : n.beginBootstrap now = .done n' (.ok ())) :
    Sane hash n' ∧ n.Later n' ∧ (n.membership.Waiting → n'.membership.Waiting) ∧
      n'.membership.Owns 0 := by
  obtain ⟨inc, effects, hfresh, hassert⟩ :=
    (beginBootstrap_cases hdone).resolve_left fun hrefused => hrefused.2 rfl
  obtain ⟨hsane, hlater, hwaits⟩ := (h.flag true).assert hassert
  exact ⟨hsane, ⟨hlater.address, hlater.owns, hlater.knows⟩, hwaits,
    owns_of_begun h.here hnamed hfresh hassert⟩

/-- A node that completes its bootstrap forgets nobody. -/
theorem Sane.completeBootstrap (h : Sane hash n) (hwaits : n.membership.Waiting)
    {snapshots : List Snapshot} (hdone : n.completeBootstrap now snapshots = .done n' effects) :
    Sane hash n' ∧ n.Later n' ∧ n'.membership.isReady = true ∧
      n'.membership.localRow? = n.membership.localRow? := by
  have hsane : Sane hash n' :=
    (h.settle (.adopt snapshots) (settle_adopt n now snapshots)).settle .openGate hdone
  obtain ⟨haddress, -, hhere, hready, -⟩ := completeBootstrap_keeps hwaits.secluded hdone
  rw [completeBootstrap_eq_settle] at hdone
  obtain ⟨m, hjoin, rfl⟩ := settle_eq_done hdone
  have hown := hwaits.localRow?_completeJoin hjoin
  have hmembership :
      (spread { (n.adopt now snapshots).1 with membership := m } now effects).membership = m :=
    membership_spread _ _ _
  refine ⟨hsane, ⟨haddress, ?_, ?_⟩, hready, ?_⟩
  all_goals rw [hmembership]
  · rintro inc ⟨row, hrow, hle⟩
    exact ⟨row, hown.trans hrow, hle⟩
  · exact fun hnamed hremote hknows => hwaits.knowsOf_completeJoin hknows hnamed hremote hjoin
  · exact hown

/-- A node that waits can complete its bootstrap. -/
theorem exists_completeBootstrap (hwaits : n.membership.Waiting) (now : Moment)
    (snapshots : List Snapshot) :
    ∃ n' effects, n.completeBootstrap now snapshots = .done n' effects := by
  obtain ⟨m, effects, hjoin⟩ := hwaits.exists_completeJoin now.wall snapshots
  rw [completeBootstrap_eq_settle, hjoin]
  exact ⟨_, _, rfl⟩

end Node

/-! ## Joins under way -/

/-- The join is one of this node, as it is now, and asks for at least one host. -/
structure Join.IsOf (j : Join) (n : Node) : Prop where
  source : j.request.source = n.address
  incarnation : j.request.incarnation = n.membership.localIncarnation
  wanted : 0 < j.wanted

namespace Join

variable {j : Join} {n n' : Node} {host : String} {answer : Option JoinResponse}

/-- The node keeps its own row. -/
theorem IsOf.later (h : j.IsOf n) (hlater : n.Later n')
    (hown : n'.membership.localRow? = n.membership.localRow?) : j.IsOf n' := by
  refine ⟨h.source.trans hlater.address.symm, h.incarnation.trans ?_, h.wanted⟩
  rw [Membership.localIncarnation, Membership.localIncarnation, hown]

/-- Whatever the host answers, the join is the same one. -/
theorem IsOf.take (h : j.IsOf n) : (j.take host answer).IsOf n := by
  cases answer with
  | none => exact ⟨h.source, h.incarnation, h.wanted⟩
  | some r =>
      rw [Join.take]
      dsimp only
      split <;> exact ⟨h.source, h.incarnation, h.wanted⟩

/-- A complete join has met somebody, as a node never asks for nobody. -/
theorem joined_ne_nil_of_isComplete (h : j.IsOf n) (hcomplete : j.isComplete = true) :
    j.joined ≠ [] := by
  have hle : j.wanted ≤ j.joined.length := of_decide_eq_true hcomplete
  exact List.length_pos_iff.mp (Nat.lt_of_lt_of_le h.wanted hle)

end Join

/-- How far a node has got with its bootstrap. -/
inductive Progress where
  /-- None is under way, and none has succeeded. -/
  | outside
  /-- The node has claimed that it is alive. -/
  | begun
  | joining (join : Join)
  | joined

namespace Progress

/-- What is true of the node. -/
def Fits (n : Node) : Progress → Prop
  | outside => n.membership.Waiting
  | begun => n.membership.Waiting ∧ n.membership.Owns 0
  | joining j => n.membership.Waiting ∧ n.membership.Owns 0 ∧ j.IsOf n
  | joined => n.membership.isReady = true ∧ n.membership.Owns 0

/-- Some host has taken the node in. -/
def IsTakenIn : Progress → Prop
  | outside => False
  | begun => False
  | joining j => j.joined ≠ []
  | joined => True

/-- A node that is later, and keeps its own row. -/
theorem Fits.later {progress : Progress} {n n' : Node} (h : progress.Fits n) (hlater : n.Later n')
    (hwaits : n.membership.Waiting → n'.membership.Waiting)
    (hready : n.membership.isReady = true → n'.membership.isReady = true)
    (hown : n'.membership.localRow? = n.membership.localRow?) : progress.Fits n' := by
  cases progress with
  | outside => exact hwaits h
  | begun => exact ⟨hwaits h.1, hlater.owns h.2⟩
  | joining j => exact ⟨hwaits h.1, hlater.owns h.2.1, h.2.2.later hlater hown⟩
  | joined => exact ⟨hready h.1, hlater.owns h.2⟩

end Progress

/-! ## The meeting -/

/-- Two nodes, and all that was ever asked and answered. -/
structure Meeting where
  nodes : Bool → Node
  progress : Bool → Progress
  /-- Who asked, and what. -/
  asked : Set (Bool × JoinRequest)
  /-- Who had asked, what, and the answer. -/
  answered : Set (Bool × JoinRequest × JoinResponse)

namespace Meeting

/-- The meeting after a step of one node. -/
def after (w : Meeting) (i : Bool) (n : Node) (progress : Progress) : Meeting :=
  { w with
    nodes := Function.update w.nodes i n
    progress := Function.update w.progress i progress }

/-- What can happen next at node `i`. The other node is `!i`, and nobody else is there to be asked. -/
inductive Turn (w : Meeting) (i : Bool) (now : Moment) : Meeting → Prop
  | beginBootstrap {n' : Node} (h : w.progress i = .outside)
      (hdone : (w.nodes i).beginBootstrap now = .done n' (.ok ())) :
      Turn w i now (w.after i n' .begun)
  | beginJoin {hosts : List String} {join : Join} (h : w.progress i = .begun)
      (hhosts : ∀ k, (w.nodes k).address ∈ hosts)
      (hjoin : (w.nodes i).beginJoin now hosts = some join) :
      Turn w i now (w.after i (w.nodes i) (.joining join))
  | nextRound {join : Join} (h : w.progress i = .joining join) (chance : Chance) :
      Turn w i now (w.after i (w.nodes i) (.joining (join.nextRound chance).1))
  | ask {join : Join} {rest : List String} (h : w.progress i = .joining join)
      (hhost : join.asking = (w.nodes (!i)).address :: rest) :
      Turn w i now { w with asked := w.asked ∪ {(i, join.request)} }
  | hear {join : Join} {rest : List String} {sent received : JoinResponse}
      (h : w.progress i = .joining join) (hhost : join.asking = (w.nodes (!i)).address :: rest)
      (hsent : (i, join.request, sent) ∈ w.answered)
      (hread : JoinResponse.ofJson? sent.toJson = some received) :
      Turn w i now (w.after i (w.nodes i)
        (.joining (join.take (w.nodes (!i)).address (some received))))
  | miss {join : Join} {host : String} {rest : List String} (h : w.progress i = .joining join)
      (hhost : join.asking = host :: rest) :
      Turn w i now (w.after i (w.nodes i) (.joining (join.take host none)))
  | pause {join : Join} (h : w.progress i = .joining join) (chance : Chance) :
      Turn w i now (w.after i (w.nodes i) (.joining (join.pause chance).2.1))
  | complete {join : Join} {n' : Node} {effects : List Change} (h : w.progress i = .joining join)
      (hcomplete : join.isComplete = true)
      (hdone : (w.nodes i).completeBootstrap now (join.joined.map Prod.snd) = .done n' effects) :
      Turn w i now (w.after i n' .joined)
  | fail {join : Join} (h : w.progress i = .joining join) :
      Turn w i now (w.after i (w.nodes i).failBootstrap .outside)
  | answer {sent received : JoinRequest} {response : JoinResponse} {n' : Node}
      (hsent : (!i, sent) ∈ w.asked) (hread : JoinRequest.ofJson? sent.toJson = some received)
      (hdone : (w.nodes i).answerJoin now received = .done n' (.ok response)) :
      Turn w i now { w.after i n' (w.progress i) with
        answered := w.answered ∪ {(!i, sent, response)} }

/-- Two new nodes with different addresses, before anything was asked. -/
structure Fresh (w : Meeting) : Prop where
  created : ∃ hash, ∀ i, ∃ address settings chance,
    Node.createWith hash address settings chance = .ok (w.nodes i)
  named : ∀ i, (w.nodes i).address ≠ ""
  distinct : (w.nodes false).address ≠ (w.nodes true).address
  outside : ∀ i, w.progress i = .outside
  unasked : w.asked = ∅
  unanswered : w.answered = ∅

/-- The meetings that new nodes come to by turns. -/
inductive Reachable : Meeting → Prop
  | fresh {w : Meeting} (h : w.Fresh) : Reachable w
  | turn {w w' : Meeting} (h : Reachable w) (i : Bool) (now : Moment) (hturn : w.Turn i now w') :
      Reachable w'

/-! ## The invariant -/

/-- One of the two is alive, at an incarnation that it has reached. -/
def Present (w : Meeting) (m : Member) : Prop :=
  m.status = .alive ∧ ∃ i, (w.nodes i).address = m.address ∧ (w.nodes i).membership.Owns m.incarnation

/-- Nothing is said but that the two are alive, and whoever has been answered is known. -/
structure Sound (hash : HashFunction) (w : Meeting) : Prop where
  named : ∀ i, (w.nodes i).address ≠ ""
  distinct : ∀ i, (w.nodes (!i)).address ≠ (w.nodes i).address
  sane : ∀ i, (w.nodes i).Sane hash
  vouched : ∀ i, (w.nodes i).Vouched w.Present
  fits : ∀ i, (w.progress i).Fits (w.nodes i)
  joins : ∀ i j, w.progress i = .joining j → j.Vouched w.Present
  known : ∀ i, (w.progress i).IsTakenIn →
    (w.nodes (!i)).membership.KnowsOf (w.nodes i).address (w.nodes i).membership.localIncarnation
  asked : ∀ i r, (i, r) ∈ w.asked →
    r.source = (w.nodes i).address ∧ w.Present ⟨r.source, .alive, r.incarnation⟩
  answered : ∀ i r a, (i, r, a) ∈ w.answered → Vouches w.Present a.membership ∧
    (w.nodes (!i)).membership.KnowsOf (w.nodes i).address r.incarnation

variable {hash : HashFunction} {w w' : Meeting} {i : Bool} {now : Moment} {n' : Node}
  {progress : Progress}

theorem nodes_after_self (w : Meeting) (i : Bool) (n : Node) (progress : Progress) :
    (w.after i n progress).nodes i = n := by
  simp only [after, Function.update_self]

theorem nodes_after_not (w : Meeting) (i : Bool) (n : Node) (progress : Progress) :
    (w.after i n progress).nodes (!i) = w.nodes (!i) := by
  simp only [after, Function.update_of_ne (Bool.not_ne_self i)]

theorem progress_after_self (w : Meeting) (i : Bool) (n : Node) (progress : Progress) :
    (w.after i n progress).progress i = progress := by
  simp only [after, Function.update_self]

theorem progress_after_not (w : Meeting) (i : Bool) (n : Node) (progress : Progress) :
    (w.after i n progress).progress (!i) = w.progress (!i) := by
  simp only [after, Function.update_of_ne (Bool.not_ne_self i)]

/-- What holds of the node that takes a step and of the other one holds of both. -/
theorem forall_of_self_of_not {P : Bool → Prop} (i : Bool) (hself : P i) (hother : P (!i))
    (k : Bool) : P k := by
  by_cases hk : k = i
  · exact hk ▸ hself
  · rw [Bool.eq_not.mpr hk]
    exact hother

/-- Every node is later after a step of one of them. -/
theorem later_after (hlater : (w.nodes i).Later n') (progress : Progress) :
    ∀ k, (w.nodes k).Later ((w.after i n' progress).nodes k) := by
  refine forall_of_self_of_not i ?_ ?_
  · rw [nodes_after_self]
    exact hlater
  · rw [nodes_after_not]
    exact .refl _

/-- Nobody goes back to a smaller incarnation. -/
theorem Present.later {m : Member} (h : w.Present m) (hlater : ∀ k, (w.nodes k).Later (w'.nodes k)) :
    w'.Present m := by
  obtain ⟨halive, k, haddress, howns⟩ := h
  exact ⟨halive, k, (hlater k).address.trans haddress, (hlater k).owns howns⟩

/-- A node that says that it is alive is. -/
theorem shows_present (hsane : (w.nodes i).Sane hash) : (w.nodes i).membership.Shows w.Present :=
  fun row hrow halive => ⟨halive, i,
    hsane.here.symm.trans (Membership.mem_of_row?_eq_some hrow).2.symm,
    row, hrow, UInt64.le_refl _⟩

namespace Sound

/-- **A step of one node keeps what is true of the meeting**, if it is true of the node afterwards. -/
theorem advance (hw : w.Sound hash) (hlater : (w.nodes i).Later n') (hsane : n'.Sane hash)
    (hvouched : n'.Vouched (w.after i n' progress).Present) (hfits : progress.Fits n')
    (hjoins : ∀ j, progress = .joining j → j.Vouched (w.after i n' progress).Present)
    (hknown : progress.IsTakenIn → (w.nodes (!i)).membership.KnowsOf (w.nodes i).address
      n'.membership.localIncarnation) : (w.after i n' progress).Sound hash := by
  -- both nodes are later than before: the one that moves by assumption, the other as it is the same
  have hlaters := later_after hlater progress
  have hpresent : ∀ m, w.Present m → (w.after i n' progress).Present m :=
    fun m hm => hm.later hlaters
  have hremote : ∀ k, (w.nodes k).address ≠ (w.nodes (!k)).membership.here := fun k => by
    rw [(hw.sane (!k)).here]
    exact (hw.distinct k).symm
  have hknows : ∀ {k inc}, (w.nodes (!k)).membership.KnowsOf (w.nodes k).address inc →
      ((w.after i n' progress).nodes (!k)).membership.KnowsOf
        ((w.after i n' progress).nodes k).address inc := fun {k} _ h => by
    rw [(hlaters k).address]
    exact (hlaters (!k)).knows (hw.named k) (hremote k) h
  constructor
  case named =>
    intro k
    rw [(hlaters k).address]
    exact hw.named k
  case distinct =>
    intro k
    rw [(hlaters k).address, (hlaters (!k)).address]
    exact hw.distinct k
  case sane =>
    refine forall_of_self_of_not i ?_ ?_
    · rwa [nodes_after_self]
    · rw [nodes_after_not]
      exact hw.sane _
  case vouched =>
    refine forall_of_self_of_not i ?_ ?_
    · rwa [nodes_after_self]
    · rw [nodes_after_not]
      exact (hw.vouched _).mono hpresent
  case fits =>
    refine forall_of_self_of_not i ?_ ?_
    · rwa [nodes_after_self, progress_after_self]
    · rw [nodes_after_not, progress_after_not]
      exact hw.fits _
  case joins =>
    refine forall_of_self_of_not i ?_ ?_
    · rwa [progress_after_self]
    · rw [progress_after_not]
      exact fun j hj => (hw.joins _ j hj).mono hpresent
  case known =>
    refine forall_of_self_of_not i ?_ ?_
    · rw [progress_after_self, nodes_after_not, nodes_after_self, hlater.address]
      exact hknown
    · rw [progress_after_not]
      intro htaken
      have hheld := hknows (hw.known (!i) htaken)
      rwa [nodes_after_not] at hheld ⊢
  case asked =>
    intro k r hr
    rw [(hlaters k).address]
    exact ⟨(hw.asked k r hr).1, hpresent _ (hw.asked k r hr).2⟩
  case answered =>
    intro k r a ha
    exact ⟨(hw.answered k r a ha).1.mono hpresent, hknows (hw.answered k r a ha).2⟩

/-- What the node held is vouched for afterwards, and it may say that it is alive. -/
theorem vouched_after (hw : w.Sound hash) (hlater : (w.nodes i).Later n') (hsane : n'.Sane hash)
    (progress : Progress) : (w.nodes i).Vouched (w.after i n' progress).Present ∧
      n'.membership.Shows (w.after i n' progress).Present := by
  refine ⟨(hw.vouched i).mono fun m hm => hm.later (later_after hlater progress), ?_⟩
  have hshows : ((w.after i n' progress).nodes i).membership.Shows (w.after i n' progress).Present :=
    shows_present (by rwa [nodes_after_self])
  rwa [nodes_after_self] at hshows

/-- The node goes on with a join. -/
theorem proceed (hw : w.Sound hash) {j : Join} (hwaits : (w.nodes i).membership.Waiting)
    (hself : (w.nodes i).membership.Owns 0) (hof : j.IsOf (w.nodes i)) (hjoin : j.Vouched w.Present)
    (hknown : j.joined ≠ [] → (w.nodes (!i)).membership.KnowsOf (w.nodes i).address
      (w.nodes i).membership.localIncarnation) :
    (w.after i (w.nodes i) (.joining j)).Sound hash := by
  have hlaters := later_after (.refl (w.nodes i)) (.joining j)
  refine hw.advance (.refl _) (hw.sane i) (hw.vouched_after (.refl _) (hw.sane i) _).1
    ⟨hwaits, hself, hof⟩ (fun j' hj' => ?_) hknown
  obtain rfl := Progress.joining.inj hj'
  exact hjoin.mono fun m hm => hm.later hlaters

/-- The join goes on, and the same hosts have been heard. -/
theorem rejoin (hw : w.Sound hash) {j j' : Join} (h : w.progress i = .joining j)
    (hrequest : j'.request = j.request) (hwanted : j'.wanted = j.wanted)
    (hjoined : j'.joined = j.joined) : (w.after i (w.nodes i) (.joining j')).Sound hash := by
  have hfits := hw.fits i
  have hknown := hw.known i
  rw [h] at hfits hknown
  obtain ⟨hwaits, hself, hof⟩ := hfits
  have hjoin := hw.joins i j h
  refine hw.proceed hwaits hself ⟨?_, ?_, ?_⟩ ⟨?_, ?_⟩ ?_
  · exact hrequest ▸ hof.source
  · exact hrequest ▸ hof.incarnation
  · exact hwanted ▸ hof.wanted
  · exact hrequest ▸ hjoin.request
  · exact hjoined ▸ hjoin.joined
  · exact fun hne : j'.joined ≠ [] => hknown (show j.joined ≠ [] from hjoined ▸ hne)

/-- A request in flight is sound when it names its sender and the sender has shown what it says. -/
theorem ask (hw : w.Sound hash) {r : JoinRequest} (hsource : r.source = (w.nodes i).address)
    (hpresent : w.Present ⟨r.source, .alive, r.incarnation⟩) :
    ({ w with asked := w.asked ∪ {(i, r)} } : Meeting).Sound hash where
  named := hw.named
  distinct := hw.distinct
  sane := hw.sane
  vouched := hw.vouched
  fits := hw.fits
  joins := hw.joins
  known := hw.known
  asked := by
    rintro k r' (hold | hnew)
    · exact hw.asked k r' hold
    · obtain ⟨rfl, rfl⟩ := Prod.mk.inj (Set.mem_singleton_iff.mp hnew)
      exact ⟨hsource, hpresent⟩
  answered := hw.answered

/-- An answer in flight is sound when every row in it was shown and its sender knows of the asking
    node. -/
theorem answer (hw : w.Sound hash) {r : JoinRequest} {a : JoinResponse}
    (hvouches : Vouches w.Present a.membership)
    (hknows : (w.nodes (!i)).membership.KnowsOf (w.nodes i).address r.incarnation) :
    ({ w with answered := w.answered ∪ {(i, r, a)} } : Meeting).Sound hash where
  named := hw.named
  distinct := hw.distinct
  sane := hw.sane
  vouched := hw.vouched
  fits := hw.fits
  joins := hw.joins
  known := hw.known
  asked := hw.asked
  answered := by
    rintro k r' a' (hold | hnew)
    · exact hw.answered k r' a' hold
    · obtain ⟨rfl, hpair⟩ := Prod.mk.inj (Set.mem_singleton_iff.mp hnew)
      obtain ⟨rfl, rfl⟩ := Prod.mk.inj hpair
      exact ⟨hvouches, hknows⟩

end Sound

/-- **A turn keeps what is true of the meeting.** -/
theorem Turn.sound (hw : w.Sound hash) (h : w.Turn i now w') : w'.Sound hash := by
  have hsane := hw.sane i
  have hfits := hw.fits i
  -- each turn either gives a node and its progress anew, or puts one message under way
  cases h with
  | beginBootstrap h hdone =>
      rw [h] at hfits
      obtain ⟨hafter, hlater, hwaits, hself⟩ := hsane.beginBootstrap (hw.named i) hdone
      obtain ⟨hheld, hshows⟩ := hw.vouched_after hlater hafter .begun
      exact hw.advance hlater hafter (hheld.beginBootstrap hsane.here hdone hshows)
        ⟨hwaits hfits, hself⟩ (fun _ hnone => Progress.noConfusion hnone) False.elim
  | beginJoin h hhosts hjoin =>
      rw [h] at hfits
      obtain ⟨hsource, hinc, hnil, hwanted⟩ := Node.beginJoin_eq_some hjoin
      have halive : ∀ row, w.Present row → w.Present { row with status := .alive } :=
        fun row hrow => ⟨rfl, hrow.2⟩
      exact hw.proceed hfits.1 hfits.2 ⟨hsource, hinc, hwanted hsane.wanted⟩
        ((hw.vouched i).beginJoin halive hsane.here hfits.2 hjoin) fun hne => absurd hnil hne
  | nextRound h chance => exact hw.rejoin h rfl rfl rfl
  | ask h hhost =>
      rw [h] at hfits
      exact hw.ask hfits.2.2.source (hw.joins i _ h).request
  | @hear join rest sent received h hhost hsent hread =>
      rw [h] at hfits
      rw [JoinResponse.ofJson?_toJson] at hread
      obtain rfl := Option.some.inj hread
      obtain ⟨hwaits, hself, hof⟩ := hfits
      obtain ⟨hvouches, hknows⟩ := hw.answered i _ _ hsent
      refine hw.proceed hwaits hself hof.take ((hw.joins i join h).take _ fun r hr => ?_) fun _ => ?_
      · obtain rfl := Option.some.inj hr
        exact fun c hc => hvouches c (Change.mem_of_mem_wellFormed hc)
      · rw [← hof.incarnation]
        exact hknows
  | miss h hhost => exact hw.rejoin h rfl rfl rfl
  | pause h chance => exact hw.rejoin h rfl rfl rfl
  | @complete join n' effects h hcomplete hdone =>
      rw [h] at hfits
      obtain ⟨hwaits, hself, hof⟩ := hfits
      obtain ⟨hafter, hlater, hready, hown⟩ := hsane.completeBootstrap hwaits hdone
      obtain ⟨hheld, hshows⟩ := hw.vouched_after hlater hafter .joined
      have hjoin := (hw.joins i join h).mono fun m hm => hm.later (later_after hlater .joined)
      have hknown := hw.known i
      rw [h] at hknown
      refine hw.advance hlater hafter (hheld.completeBootstrap hjoin.snapshots hdone hshows)
        ⟨hready, hlater.owns hself⟩ (fun _ hnone => Progress.noConfusion hnone) fun _ => ?_
      rw [Membership.localIncarnation, hown]
      exact hknown (Join.joined_ne_nil_of_isComplete hof hcomplete)
  | @fail join h =>
      rw [h] at hfits
      have hlater : (w.nodes i).Later (w.nodes i).failBootstrap := ⟨rfl, id, fun _ _ => id⟩
      have hafter : (w.nodes i).failBootstrap.Sane hash := hsane.flag false
      obtain ⟨hheld, -⟩ := hw.vouched_after hlater hafter .outside
      exact hw.advance hlater hafter (hheld.idle (.failBootstrap _)) hfits.1
        (fun _ hnone => Progress.noConfusion hnone) False.elim
  | @answer sent received response n' hsent hread hdone =>
      rw [JoinRequest.ofJson?_toJson] at hread
      obtain rfl := Option.some.inj hread
      obtain ⟨hsource, hpresent⟩ := hw.asked _ _ hsent
      obtain ⟨hremote, ⟨effects, hassert⟩, -, -⟩ := Node.answerJoin_eq_ok hdone
      obtain ⟨hafter, hlater, hwaits⟩ := hsane.assert hassert
      obtain ⟨hknows, hready, hown⟩ :=
        hsane.assert_remote (hsource ▸ hw.named (!i)) hremote hassert
      have hlaters := later_after hlater (w.progress i)
      obtain ⟨hheld, hshows⟩ := hw.vouched_after hlater hafter (w.progress i)
      obtain ⟨hvouched, hvouches⟩ := hheld.answerJoin (hpresent.later hlaters) hdone hshows
      have hmet : (w.after i n' (w.progress i)).Sound hash := by
        refine hw.advance hlater hafter hvouched
          (hfits.later hlater hwaits (fun hopen => hready.trans hopen) hown) ?_ fun htaken => ?_
        · exact fun j hj => (hw.joins i j hj).mono fun m hm => hm.later hlaters
        · rw [Membership.localIncarnation, hown]
          exact hw.known i htaken
      -- the table has taken the request in before the answer goes under way
      refine hmet.answer hvouches ?_
      rw [Bool.not_not, nodes_after_self, nodes_after_not, ← hsource]
      exact hknows

/-! ## Every run -/

/-- A meeting that has just begun is sound: nobody knows anything, and nothing is under way. -/
theorem Fresh.sound (h : w.Fresh) : ∃ hash, w.Sound hash := by
  obtain ⟨hash, hcreated⟩ := h.created
  have hblank : ∀ k, (w.nodes k).Sane hash ∧ (w.nodes k).Vouched w.Present ∧
      (w.nodes k).membership.Waiting := by
    intro k
    obtain ⟨address, settings, chance, hnew⟩ := hcreated k
    refine ⟨.createWith hnew, Node.vouched_createWith _ hnew, ?_⟩
    obtain ⟨-, hmembership, -⟩ := Node.createWith_eq hnew
    rw [hmembership]
    exact ⟨rfl, fun row hrow => absurd hrow List.not_mem_nil,
      fun c hc => absurd hc List.not_mem_nil, fun c hc => absurd hc List.not_mem_nil⟩
  refine ⟨hash, h.named, ?_, fun k => (hblank k).1, fun k => (hblank k).2.1, ?_, ?_, ?_, ?_, ?_⟩
  · intro k
    cases k with
    | false => exact h.distinct.symm
    | true => exact h.distinct
  · intro k
    rw [h.outside k]
    exact (hblank k).2.2
  · intro k j hj
    rw [h.outside k] at hj
    cases hj
  · intro k htaken
    rw [h.outside k] at htaken
    exact htaken.elim
  · intro k r hr
    rw [h.unasked] at hr
    exact absurd hr (Set.notMem_empty _)
  · intro k r a ha
    rw [h.unanswered] at ha
    exact absurd ha (Set.notMem_empty _)

theorem Reachable.sound (h : w.Reachable) : ∃ hash, w.Sound hash := by
  induction h with
  | fresh h => exact h.sound
  | turn _ i now hturn ih =>
      obtain ⟨hash, hw⟩ := ih
      exact ⟨hash, hturn.sound hw⟩

/-- The member that the node is, alive at its incarnation. -/
def self (w : Meeting) (i : Bool) : Member :=
  ⟨(w.nodes i).address, .alive, (w.nodes i).membership.localIncarnation⟩

/-- A join that enough hosts have answered can be concluded, and the two stay who they are. -/
theorem Reachable.exists_complete (h : w.Reachable) {join : Join}
    (hjoining : w.progress i = .joining join) (hcomplete : join.isComplete = true) (now : Moment) :
    ∃ n, (w.after i n .joined).Reachable ∧ (w.after i n .joined).self = w.self := by
  obtain ⟨hash, hw⟩ := h.sound
  have hfits := hw.fits i
  rw [hjoining] at hfits
  obtain ⟨n, effects, hdone⟩ :=
    Node.exists_completeBootstrap hfits.1 now (join.joined.map Prod.snd)
  obtain ⟨-, hlater, -, hown⟩ := (hw.sane i).completeBootstrap hfits.1 hdone
  refine ⟨n, h.turn i now (.complete hjoining hcomplete hdone), funext ?_⟩
  refine forall_of_self_of_not i ?_ ?_
  · rw [self, self, nodes_after_self, hlater.address, Membership.localIncarnation, hown]
    rfl
  · rw [self, nodes_after_not]
    rfl

/-- Two new nodes, `a` and `b`. -/
def pair : Meeting where
  nodes := Cluster.pair.nodes
  progress _ := .outside
  asked := ∅
  answered := ∅

/-- `a` and `b` have begun, and each is asked while it is joining itself. Then each hears its
    answer. -/
theorem exists_both_answered :
    ∃ w : Meeting, w.Reachable ∧ w.self false = ⟨"a", .alive, 8⟩ ∧ w.self true = ⟨"b", .alive, 9⟩ ∧
      (∃ join, w.progress false = .joining join ∧ join.isComplete = true) ∧
      ∃ join, w.progress true = .joining join ∧ join.isComplete = true := by
  have h : pair.Reachable := by
    refine .fresh ⟨⟨hash32, fun i => ?_⟩, by decide, by decide, fun _ => rfl, rfl, rfl⟩
    refine ⟨if i then "b" else "a", .default, .none, ?_⟩
    cases i <;> rfl
  have h := h.turn false ⟨8, 0⟩ (.beginBootstrap rfl
    (Attempt.eq_done_of_result? (show _ = some (Except.ok ()) by decide +kernel)))
  have h := h.turn true ⟨9, 1⟩ (.beginBootstrap rfl
    (Attempt.eq_done_of_result? (show _ = some (Except.ok ()) by decide +kernel)))
  have h := h.turn false ⟨10, 2⟩ (.beginJoin rfl (by decide +kernel)
    (show Node.beginJoin _ _ ["a", "b"] = some _ from rfl))
  have h := h.turn true ⟨10, 2⟩ (.beginJoin rfl (by decide +kernel)
    (show Node.beginJoin _ _ ["a", "b"] = some _ from rfl))
  have h := h.turn false ⟨10, 2⟩ (.nextRound rfl .none)
  have h := h.turn true ⟨10, 2⟩ (.nextRound rfl .none)
  have h := h.turn false ⟨10, 3⟩ (.ask rfl (show _ = ["b"] by decide +kernel))
  have h := h.turn true ⟨10, 3⟩ (.ask rfl (show _ = ["a"] by decide +kernel))
  -- neither has joined, so what they are asked waits behind the gate
  have h := h.turn true ⟨10, 4⟩ (.answer (by exact Or.inl (Or.inr rfl)) (JoinRequest.ofJson?_toJson _)
    (Attempt.eq_done_of_result? (show _ = some (Except.ok _) from rfl)))
  have h := h.turn false ⟨10, 4⟩ (.answer (by exact Or.inr rfl) (JoinRequest.ofJson?_toJson _)
    (Attempt.eq_done_of_result? (show _ = some (Except.ok _) from rfl)))
  have h := h.turn false ⟨10, 5⟩ (.hear rfl (show _ = ["b"] by decide +kernel)
    (by exact Or.inl (Or.inr rfl)) (JoinResponse.ofJson?_toJson _))
  have h := h.turn true ⟨10, 5⟩ (.hear rfl (show _ = ["a"] by decide +kernel)
    (by exact Or.inr rfl) (JoinResponse.ofJson?_toJson _))
  exact ⟨_, h, by decide +kernel, by decide +kernel, ⟨_, rfl, by decide +kernel⟩,
    ⟨_, rfl, by decide +kernel⟩⟩

/-! ## Agreement -/

namespace Sound

/-- Nobody is recorded but the two, and no incarnation but what they have reached. -/
theorem exists_of_row (hw : w.Sound hash) {row : Member}
    (hrow : row ∈ (w.nodes i).membership.rows) :
    ∃ k, row.address = (w.nodes k).address ∧ row.status = .alive ∧
      row.incarnation ≤ (w.nodes k).membership.localIncarnation := by
  obtain ⟨halive, k, haddress, own, hown, hle⟩ := (hw.vouched i).table.rows row hrow
  rw [← Membership.localIncarnation_of_localRow? hown] at hle
  exact ⟨k, haddress.symm, halive, hle⟩

theorem address_injective (hw : w.Sound hash) {i k : Bool}
    (h : (w.nodes i).address = (w.nodes k).address) : i = k := by
  by_contra hne
  rw [Bool.eq_not.mpr hne] at h
  exact hw.distinct k h

/-- **Each of the two that have joined is recorded as it is**, by itself and by the other one. -/
theorem row?_of_joined (hw : w.Sound hash) (hjoined : ∀ k, w.progress k = .joined) (i k : Bool) :
    (w.nodes i).membership.row? (w.nodes k).address = some (w.self k) := by
  have hfits := hw.fits
  have hknown := hw.known
  simp only [hjoined] at hfits hknown
  -- of itself a node knows by its own row, and of its peer by what the peer's join has told
  have hknows : (w.nodes i).membership.KnowsOf (w.nodes k).address
      (w.nodes k).membership.localIncarnation := by
    by_cases hk : i = k
    · subst hk
      obtain ⟨row, hrow, -⟩ := (hfits i).2
      rw [Membership.localIncarnation_of_localRow? hrow, ← (hw.sane i).here]
      exact Or.inl ⟨row, hrow, UInt64.le_refl _⟩
    · rw [Bool.eq_not.mpr hk]
      exact hknown k trivial
  obtain ⟨⟨address, status, incarnation⟩, hrow, hle⟩ := hknows.row (hfits i).1
  obtain ⟨hmem, haddress⟩ := Membership.mem_of_row?_eq_some hrow
  obtain ⟨k', haddress', halive, hge⟩ := hw.exists_of_row hmem
  obtain rfl := hw.address_injective (haddress.symm.trans haddress')
  rw [hrow, self, Option.some.injEq, Member.mk.injEq]
  exact ⟨haddress, halive, UInt64.le_antisymm hge hle⟩

/-- Once both have joined, the rows of either table are those of the two nodes themselves. -/
theorem mem_rows_of_joined (hw : w.Sound hash) (hjoined : ∀ k, w.progress k = .joined) (i : Bool)
    (row : Member) :
    row ∈ (w.nodes i).membership.rows ↔ row ∈ [w.self false, w.self true] := by
  constructor
  · intro hrow
    -- a row belongs to one of the two nodes, and each address has one row
    obtain ⟨k, haddress, -⟩ := hw.exists_of_row hrow
    have hfound := (Membership.row?_eq_some_iff (hw.vouched i).truthful.distinct).mpr ⟨hrow, haddress⟩
    obtain rfl := Option.some.inj ((hw.row?_of_joined hjoined i k).symm.trans hfound)
    cases k with
    | false => exact List.mem_cons_self
    | true => exact List.mem_cons_of_mem _ (List.mem_singleton_self _)
  · intro hrow
    obtain ⟨k, rfl⟩ : ∃ k, row = w.self k := by
      rcases List.mem_cons.mp hrow with rfl | hrow
      · exact ⟨false, rfl⟩
      · exact ⟨true, List.mem_singleton.mp hrow⟩
    exact (Membership.mem_of_row?_eq_some (hw.row?_of_joined hjoined i k)).1

/-- The table of a node that has joined, in some order. -/
theorem rows_perm_of_joined (hw : w.Sound hash) (hjoined : ∀ k, w.progress k = .joined) (i : Bool) :
    (w.nodes i).membership.rows.Perm [w.self false, w.self true] := by
  have hpair : [w.self false, w.self true].Nodup := by
    rw [List.nodup_cons, List.mem_singleton]
    refine ⟨fun hsame => hw.distinct true ?_, List.nodup_singleton _⟩
    exact congrArg Member.address hsame
  have hrows : (w.nodes i).membership.rows.Nodup :=
    List.Nodup.of_map Member.address (hw.vouched i).truthful.distinct
  exact (List.perm_ext_iff_of_nodup hrows hpair).mpr (hw.mem_rows_of_joined hjoined i)

/-- The two have the same checksum. -/
theorem checksum_of_joined (hw : w.Sound hash) (hjoined : ∀ k, w.progress k = .joined) :
    ∃ checksum, ∀ i, (w.nodes i).membership.checksum = some checksum := by
  have hfits : ∀ i, ∃ checksum, (w.nodes i).membership.checksum = some checksum ∧
      Membership.Describes hash (w.nodes i).membership.rows checksum := by
    intro i
    have hfits := (hw.sane i).reached.fits
    rw [(hw.sane i).hashes] at hfits
    cases hchecksum : (w.nodes i).membership.checksum with
    | none =>
        rw [hchecksum] at hfits
        have hrow := (hw.mem_rows_of_joined hjoined i (w.self false)).mpr List.mem_cons_self
        rw [show (w.nodes i).membership.rows = [] from hfits] at hrow
        exact absurd hrow List.not_mem_nil
    | some checksum =>
        rw [hchecksum] at hfits
        exact ⟨checksum, rfl, hfits⟩
  obtain ⟨checksum, -, hdescribes⟩ := hfits false
  refine ⟨checksum, fun i => ?_⟩
  obtain ⟨checksum', hchecksum', hdescribes'⟩ := hfits i
  -- the rows of the two are the same up to their order, which the checksum does not see
  have hperm := (hw.rows_perm_of_joined hjoined i).trans (hw.rows_perm_of_joined hjoined false).symm
  rw [hchecksum', hdescribes'.unique hdescribes hperm]

/-- Their rings declare the two. -/
theorem mem_servers_of_joined (hw : w.Sound hash) (hjoined : ∀ k, w.progress k = .joined) (i : Bool)
    (address : String) : address ∈ (w.nodes i).ring.servers ↔
      address = (w.nodes false).address ∨ address = (w.nodes true).address := by
  obtain ⟨k, hrouted⟩ := (hw.sane i).routed
  rw [hrouted.faithful.declared, Membership.Serves]
  simp only [hw.mem_rows_of_joined hjoined, List.mem_cons, List.not_mem_nil, or_false]
  constructor
  · rintro ⟨row, rfl | rfl, rfl, -⟩
    · exact Or.inl rfl
    · exact Or.inr rfl
  · rintro (rfl | rfl)
    · exact ⟨_, Or.inl rfl, rfl, Or.inl rfl⟩
    · exact ⟨_, Or.inr rfl, rfl, Or.inl rfl⟩

/-- Once both have joined, their rings have the same servers. -/
theorem servers_of_joined (hw : w.Sound hash) (hjoined : ∀ k, w.progress k = .joined) :
    (w.nodes true).ring.servers = (w.nodes false).ring.servers := by
  obtain ⟨k, hrouted⟩ := (hw.sane true).routed
  obtain ⟨k', hrouted'⟩ := (hw.sane false).routed
  refine hrouted.sound.servers_eq hrouted'.sound fun s => hrouted.mem_servers_congr hrouted' ?_ s
  intro row
  rw [hw.mem_rows_of_joined hjoined, hw.mem_rows_of_joined hjoined]

end Sound

/-- **Two nodes that join each other agree.** However their joins overlapped, and whatever was lost,
    came late or was tried again: once both have joined, each table consists of the two nodes, alive
    and at the incarnations that they have themselves. They have the same checksum, and their rings
    declare the same servers, which are the two. -/
theorem both_joined_agree (h : w.Reachable) (hjoined : ∀ i, w.progress i = .joined) :
    (∀ i, (w.nodes i).membership.rows.Perm [w.self false, w.self true]) ∧
      (∃ checksum, ∀ i, (w.nodes i).membership.checksum = some checksum) ∧
      (w.nodes true).ring.servers = (w.nodes false).ring.servers ∧
      ∀ i address, address ∈ (w.nodes i).ring.servers ↔
        address = (w.nodes false).address ∨ address = (w.nodes true).address := by
  obtain ⟨hash, hw⟩ := h.sound
  exact ⟨hw.rows_perm_of_joined hjoined, hw.checksum_of_joined hjoined, hw.servers_of_joined hjoined,
    hw.mem_servers_of_joined hjoined⟩

/-- `a` and `b` conclude their joins one after the other. -/
theorem both_joined_agree_overlapping :
    ∃ w : Meeting, w.Reachable ∧ (∀ i, w.progress i = .joined) ∧
      (∀ i, (w.nodes i).membership.rows.Perm [⟨"a", .alive, 8⟩, ⟨"b", .alive, 9⟩]) ∧
      (∃ checksum, ∀ i, (w.nodes i).membership.checksum = some checksum) ∧
      (w.nodes true).ring.servers = (w.nodes false).ring.servers := by
  obtain ⟨w, h, ha, hb, ⟨join, hjoining, hcomplete⟩, ⟨join', hjoining', hcomplete'⟩⟩ :=
    exists_both_answered
  obtain ⟨n, h, hself⟩ := h.exists_complete hjoining hcomplete ⟨10, 6⟩
  obtain ⟨n', h, hself'⟩ := h.exists_complete
    ((progress_after_not w false n .joined).trans hjoining') hcomplete' ⟨10, 7⟩
  have hjoined : ∀ i, (((w.after false n .joined).after true n' .joined).progress i) = .joined :=
    Bool.forall_bool.mpr ⟨rfl, rfl⟩
  obtain ⟨hrows, hchecksum, hservers, -⟩ := both_joined_agree h hjoined
  rw [hself', hself, ha, hb] at hrows
  exact ⟨_, h, hjoined, hrows, hchecksum, hservers⟩

end Meeting

end GossipRing
