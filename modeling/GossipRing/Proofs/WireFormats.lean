import GossipRing.Proofs.Lifetime
import GossipRing.Proofs.WireRoundTrip

/-!
# What nodes send arrives

Toward: nothing that a node says is lost on the way. A list of claims is read leniently, and a claim
about nobody in it is left out without a word; so this is a property of what nodes hold.

* **`WireType`** — the types of records, each with what is written of a value and what is read again.
* **`WireType.read_write`** — what comes back of a value; **`WireType.named_of_read`** and
  **`WireType.isWhole_of_read`** — what has been read is about somebody, and its durations are whole.
* **`Node.Named`** — nothing that a node holds is about nobody. Every act keeps this
  (`Node.Named.perform`).
* **`Process.messages_arrive_whole`** — hence what a node sends comes back as it was.
-/

namespace GossipRing

/-! ## Types of records -/

/-- The types of records that have a form on the wire. -/
inductive WireType where
  | status
  | member
  | change
  | snapshot
  | joinRequest
  | joinResponse
  | pingRequest
  | pingResponse
  | pingReqRequest
  | pingReqResponse
  | gossipStatus
  | settings
  deriving DecidableEq, Repr

namespace WireType

/-- The values of the type. -/
abbrev Value : WireType → Type
  | status => Status
  | member => Member
  | change => Change
  | snapshot => Snapshot
  | joinRequest => JoinRequest
  | joinResponse => JoinResponse
  | pingRequest => PingRequest
  | pingResponse => PingResponse
  | pingReqRequest => PingReqRequest
  | pingReqResponse => PingReqResponse
  | gossipStatus => GossipStatus
  | settings => Settings

/-- What is written of a value. -/
def write : (w : WireType) → w.Value → Json
  | status => Status.toJson
  | member => Member.toJson
  | change => Change.toJson
  | snapshot => Snapshot.toJson
  | joinRequest => JoinRequest.toJson
  | joinResponse => JoinResponse.toJson
  | pingRequest => PingRequest.toJson
  | pingResponse => PingResponse.toJson
  | pingReqRequest => PingReqRequest.toJson
  | pingReqResponse => PingReqResponse.toJson
  | gossipStatus => GossipStatus.toJson
  | settings => Settings.toJson

/-- The value that is read, if what was written is one. -/
def read : (w : WireType) → Json → Option w.Value
  | status => Status.ofJson?
  | member => Member.ofJson?
  | change => Change.ofJson?
  | snapshot => Snapshot.ofJson?
  | joinRequest => JoinRequest.ofJson?
  | joinResponse => JoinResponse.ofJson?
  | pingRequest => PingRequest.ofJson?
  | pingResponse => PingResponse.ofJson?
  | pingReqRequest => PingReqRequest.ofJson?
  | pingReqResponse => PingReqResponse.ofJson?
  | gossipStatus => GossipStatus.ofJson?
  | settings => Settings.ofJson?

/-- The claims of a value that are read leniently. -/
def claims : (w : WireType) → w.Value → List Change
  | joinResponse, r => r.membership
  | pingRequest, r => r.changes
  | pingResponse, r => r.changes
  | pingReqRequest, r => r.changes
  | pingReqResponse, r => r.changes
  | _, _ => []

/-- The durations of a value. -/
def durations : (w : WireType) → w.Value → List Duration
  | settings, s => s.durations
  | _, _ => []

/-- The value without the claims that are left out on the way, and with whole milliseconds. -/
def arrival : (w : WireType) → w.Value → w.Value
  | joinResponse, r => { r with membership := Change.wellFormed r.membership }
  | pingRequest, r => { r with changes := Change.wellFormed r.changes }
  | pingResponse, r => { r with changes := Change.wellFormed r.changes }
  | pingReqRequest, r => { r with changes := Change.wellFormed r.changes }
  | pingReqResponse, r => { r with changes := Change.wellFormed r.changes }
  | settings, s => s.written
  | _, v => v

/-- **What comes back of a value.** -/
theorem read_write (w : WireType) (v : w.Value) : w.read (w.write v) = some (w.arrival v) := by
  cases w with
  | status => exact Status.ofJson?_toJson v
  | member => exact Member.ofJson?_toJson v
  | change => exact Change.ofJson?_toJson v
  | snapshot => exact Snapshot.ofJson?_toJson v
  | joinRequest => exact JoinRequest.ofJson?_toJson v
  | joinResponse => exact JoinResponse.ofJson?_toJson v
  | pingRequest => exact PingRequest.ofJson?_toJson v
  | pingResponse => exact PingResponse.ofJson?_toJson v
  | pingReqRequest => exact PingReqRequest.ofJson?_toJson v
  | pingReqResponse => exact PingReqResponse.ofJson?_toJson v
  | gossipStatus => exact GossipStatus.ofJson?_toJson v
  | settings => exact Settings.ofJson?_toJson v

/-- Only settings have durations. -/
theorem isWhole_of_ne {w : WireType} (h : w ≠ settings) (v : w.Value) :
    ∀ d ∈ w.durations v, d.IsWhole := by
  cases w with
  | settings => exact absurd rfl h
  | _ => exact List.forall_mem_nil _

/-- Nothing of a value is lost exactly if no claim of it is about nobody and its durations are whole. -/
theorem arrival_eq_self_iff (w : WireType) (v : w.Value) :
    w.arrival v = v ↔ (∀ c ∈ w.claims v, c.address ≠ "") ∧ ∀ d ∈ w.durations v, d.IsWhole := by
  have hnobody : ∀ c ∈ ([] : List Change), c.address ≠ "" := List.forall_mem_nil _
  -- five messages lose claims about nobody, settings lose parts of milliseconds, all others lose
  -- nothing
  cases w with
  | joinResponse =>
      rw [and_iff_left (isWhole_of_ne (by decide) v), claims, ← Change.wellFormed_eq_self_iff]
      exact ⟨congrArg JoinResponse.membership, fun h => by rw [arrival, h]⟩
  | pingRequest =>
      rw [and_iff_left (isWhole_of_ne (by decide) v), claims, ← Change.wellFormed_eq_self_iff]
      exact ⟨congrArg PingRequest.changes, fun h => by rw [arrival, h]⟩
  | pingResponse =>
      rw [and_iff_left (isWhole_of_ne (by decide) v), claims, ← Change.wellFormed_eq_self_iff]
      exact ⟨congrArg PingResponse.changes, fun h => by rw [arrival, h]⟩
  | pingReqRequest =>
      rw [and_iff_left (isWhole_of_ne (by decide) v), claims, ← Change.wellFormed_eq_self_iff]
      exact ⟨congrArg PingReqRequest.changes, fun h => by rw [arrival, h]⟩
  | pingReqResponse =>
      rw [and_iff_left (isWhole_of_ne (by decide) v), claims, ← Change.wellFormed_eq_self_iff]
      exact ⟨congrArg PingReqResponse.changes, fun h => by rw [arrival, h]⟩
  | settings => exact Settings.written_eq_self_iff.trans (and_iff_right hnobody).symm
  | _ => exact ⟨fun _ => ⟨hnobody, List.forall_mem_nil _⟩, fun _ => rfl⟩

/-- What is written is read back exactly when every claim names somebody and no duration has to be cut
    off. -/
theorem read_write_eq_iff (w : WireType) (v : w.Value) :
    w.read (w.write v) = some v ↔
      (∀ c ∈ w.claims v, c.address ≠ "") ∧ ∀ d ∈ w.durations v, d.IsWhole := by
  rw [read_write, Option.some_inj, arrival_eq_self_iff]

/-- **No claim of a value that has been read is about nobody.** -/
theorem named_of_read {w : WireType} {j : Json} {v : w.Value} (h : w.read j = some v) :
    ∀ c ∈ w.claims v, c.address ≠ "" := by
  cases w with
  | joinResponse => exact JoinResponse.named_of_ofJson? h
  | pingRequest => exact PingRequest.named_of_ofJson? h
  | pingResponse => exact PingResponse.named_of_ofJson? h
  | pingReqRequest => exact PingReqRequest.named_of_ofJson? h
  | pingReqResponse => exact PingReqResponse.named_of_ofJson? h
  | _ => exact fun c hc => absurd hc List.not_mem_nil

/-- **The durations of a value that has been read are whole.** -/
theorem isWhole_of_read {w : WireType} {j : Json} {v : w.Value} (h : w.read j = some v) :
    ∀ d ∈ w.durations v, d.IsWhole := by
  cases w with
  | settings => exact Settings.isWhole_of_ofJson? h
  | _ => exact isWhole_of_ne (by decide) v

end WireType

/-! ## Operations on the table -/

namespace Membership

variable {now : Clock} {m m' : Membership} {op : Op} {claims effects : List Change} {c : Change}

/-- Every effect of an operation names somebody. -/
theorem Op.named_of_mem (h : op.apply now m = .done m' effects) (hc : c ∈ effects) : c.address ≠ "" :=
  mt String.isEmpty_iff.mpr (op.not_isMalformed h hc)

/-- Nobody is nobody among the claims that are held back. -/
theorem named_of_mem_holdBack (h : c ∈ (m.holdBack claims).gate.stash) :
    c ∈ m.gate.stash ∨ c.address ≠ "" := by
  rcases List.mem_append.mp h with hold | hnew
  · exact Or.inl hold
  · exact Or.inr (Change.not_isMalformed_iff.mp (List.mem_filter.mp hnew).2)

/-- Whatever an update adds to the stash names somebody. -/
theorem named_of_mem_update {localAlive : Bool} (h : m.update now claims localAlive = .done m' effects)
    (hc : c ∈ m'.gate.stash) : c ∈ m.gate.stash ∨ c.address ≠ "" := by
  rcases gate_update h with hgate | ⟨-, rfl⟩
  · exact Or.inl (hgate ▸ hc)
  · exact named_of_mem_holdBack hc

/-- **An operation holds back only what is about somebody.** -/
theorem Op.named_of_mem_stash (h : op.apply now m = .done m' effects) (hc : c ∈ m'.gate.stash) :
    c ∈ m.gate.stash ∨ c.address ≠ "" := by
  cases op with
  | update claims localAlive => exact named_of_mem_update h hc
  | assert address status incarnation => exact named_of_mem_update h hc
  | adopt snapshots =>
      obtain ⟨rfl, -⟩ := Attempt.done.inj h
      exact Or.inl ((m.stash_adopt_sublist snapshots).subset hc)
  | openGate =>
      have h : m.openGate now = .done m' effects := h
      rw [openGate_eq_update] at h
      refine Or.inr ((named_of_mem_update h hc).resolve_left ?_)
      exact List.not_mem_nil

/-- **Where an operation stops** it has applied the first claims of a batch, and opened the gate or left
    it alone. -/
theorem Op.apply_eq_exhausted (h : op.apply now m = .exhausted m') :
    ∃ gate before effects, (gate = m.gate ∨ gate = .opened) ∧
      Applied now { m with gate := gate } before m' effects := by
  have hbatch : ∀ {gate : Gate} {claims : List Change} {localAlive : Bool},
      ({ m with gate := gate } : Membership).update now claims localAlive = .exhausted m' →
        ∃ before effects, Applied now { m with gate := gate } before m' effects := by
    intro gate claims localAlive hupdate
    obtain ⟨-, before, c, after, effects, -, happlied, -⟩ := update_eq_exhausted hupdate
    exact ⟨before, effects, happlied⟩
  cases op with
  | update claims localAlive =>
      obtain ⟨before, effects, happlied⟩ := hbatch h
      exact ⟨m.gate, before, effects, Or.inl rfl, happlied⟩
  | assert address status incarnation =>
      obtain ⟨before, effects, happlied⟩ := hbatch h
      exact ⟨m.gate, before, effects, Or.inl rfl, happlied⟩
  | adopt snapshots => cases h
  | openGate =>
      have h : m.openGate now = .exhausted m' := h
      rw [openGate_eq_update] at h
      obtain ⟨before, effects, happlied⟩ := hbatch h
      exact ⟨.opened, before, effects, Or.inr rfl, happlied⟩

/-! ## Nothing is about nobody -/

/-- No row is about nobody, and no claim that is held back. -/
structure NamesAll (m : Membership) : Prop where
  rows : m.Named
  stash : ∀ c ∈ m.gate.stash, c.address ≠ ""

/-- **Every operation keeps this**, whether it is completed or stops. -/
theorem NamesAll.apply (hm : m.NamesAll) (now : Clock) (op : Op) :
    (op.apply now m).state.NamesAll := by
  cases h : op.apply now m with
  | done m' effects =>
      refine ⟨hm.rows.apply h, fun c hc => ?_⟩
      exact (op.named_of_mem_stash h hc).elim (hm.stash c) id
  | exhausted m' =>
      obtain ⟨gate, before, effects, hgate, happlied⟩ := op.apply_eq_exhausted h
      constructor
      · intro row hrow
        rw [Attempt.state_exhausted, happlied.eq_putAll] at hrow
        rcases mem_rows_putAll hrow with hold | ⟨e, he, rfl⟩
        · exact hm.rows row hold
        · exact mt String.isEmpty_iff.mpr (happlied.origin he).1
      · intro c hc
        rw [Attempt.state_exhausted, happlied.gate_eq] at hc
        rcases hgate with rfl | rfl
        · exact hm.stash c hc
        · exact absurd hc List.not_mem_nil

/-- No claim of the whole table is about nobody. -/
theorem NamesAll.snapshot (hm : m.NamesAll) (hc : c ∈ m.snapshot now) : c.address ≠ "" := by
  obtain ⟨row, hrow, rfl⟩ := List.mem_map.mp hc
  exact hm.rows row hrow

end Membership

/-! ## What nodes hold and send -/

namespace Node

/-- Nothing that the node holds is about nobody: no row, no claim that is held back, and none that waits
    to ride along. -/
structure Named (n : Node) : Prop where
  rows : ∀ row ∈ n.membership.rows, row.address ≠ ""
  stash : ∀ c ∈ n.membership.gate.stash, c.address ≠ ""
  pending : ∀ p ∈ n.piggyback.pending, p.change.address ≠ ""

/-- The node can send this: to ask to be taken in, to ping or to have others ping, or as an answer. -/
inductive Sends (n : Node) : (w : WireType) → w.Value → Prop
  | joinRequest {now : Moment} {hosts : List String} {join : Join}
      (h : n.beginJoin now hosts = some join) : Sends n .joinRequest join.request
  | joinResponse {now : Moment} {request : JoinRequest} {n' : Node} {response : JoinResponse}
      (h : n.answerJoin now request = .done n' (.ok response)) : Sends n .joinResponse response
  | pingRequest : Sends n .pingRequest n.composePing.2
  | pingResponse {now : Moment} {request : PingRequest} {n' : Node} {response : PingResponse}
      (h : n.answerPing now request = .done n' response) : Sends n .pingResponse response
  | pingReqRequest (target : Member) (chance : Chance) :
      Sends n .pingReqRequest (n.composePingReq target chance).2.1
  | pingReqResponse (now : Moment) (request : PingReqRequest) (reached : Bool) :
      Sends n .pingReqResponse (n.answerPingReq now request reached).2

variable {now : Moment} {n n' : Node} {effects : List Change} {c : Change}

namespace Named

theorem table (h : n.Named) : n.membership.NamesAll := ⟨h.rows, h.stash⟩

/-- A step that leaves the table alone, and lets nothing else wait. -/
theorem congr (h : n.Named) (htable : n'.membership = n.membership)
    (hpending : n'.piggyback.pending.map Pending.change ⊆ n.piggyback.pending.map Pending.change) :
    n'.Named where
  rows := htable ▸ h.rows
  stash := htable ▸ h.stash
  pending p hp := by
    obtain ⟨q, hq, hchange⟩ := List.mem_map.mp (hpending (List.mem_map_of_mem hp))
    rw [← hchange]
    exact h.pending q hq

/-- An idle step keeps a node named: it writes no row and records no change. -/
theorem idle (h : n.Named) (hidle : n.Idles n') : n'.Named :=
  h.congr hidle.table hidle.pending.subset

/-- **An operation on the table**, with what took effect recorded. -/
theorem settle (h : n.Named) (now : Moment) (op : Membership.Op) :
    (n.settle now (op.apply now.wall n.membership)).state.Named := by
  have htable := h.table.apply now.wall op
  cases happly : op.apply now.wall n.membership with
  | exhausted m =>
      rw [happly] at htable
      exact ⟨htable.rows, htable.stash, h.pending⟩
  | done m effects =>
      rw [happly] at htable
      show (spread { n with membership := m } now effects).Named
      refine ⟨?_, ?_, fun p hp => ?_⟩
      · rw [membership_spread]
        exact htable.rows
      · rw [membership_spread]
        exact htable.stash
      · rw [piggyback_spread] at hp
        rcases Piggyback.mem_recordAll hp with hold | hnew
        · exact h.pending p hold
        · exact op.named_of_mem happly hnew

theorem settled (h : n.Named) (op : Membership.Op)
    (hdone : n.settle now (op.apply now.wall n.membership) = .done n' effects) : n'.Named := by
  have hafter := h.settle now op
  rw [hdone] at hafter
  exact hafter

theorem heeds (h : n.Named) (hheeds : Heeds now n n') : n'.Named := by
  rcases hheeds with rfl | ⟨op, effects, -, hsettle⟩
  · exact h
  · exact h.settled op hsettle

theorem stopped (h : n.Named) (op : Membership.Op)
    (hstop : n.settle now (op.apply now.wall n.membership) = .exhausted n') : n'.Named := by
  have hafter := h.settle now op
  rw [hstop] at hafter
  exact hafter

theorem stops (h : n.Named) (hstops : Stops now n n') : n'.Named := by
  cases hstops with
  | fresh _ => exact h
  | settle op _ hsettle => exact h.stopped op hsettle

/-- Nothing that is handed out is about nobody. -/
theorem issued (h : n.Named) (hc : c ∈ n.piggyback.issue.2) : c.address ≠ "" := by
  obtain ⟨p, hp, rfl⟩ := Piggyback.mem_issued hc
  exact h.pending p hp

/-- Every change in an answer names somebody. -/
theorem answered (h : n.Named) {checksum : Option UInt32} (hc : c ∈ (n.answerWith now checksum).2) :
    c.address ≠ "" := by
  rcases Piggyback.mem_answer hc with ⟨p, hp, rfl⟩ | hsnapshot
  · exact h.pending p hp
  · exact h.table.snapshot hsnapshot

/-- **No claim that the node sends is about nobody.** -/
theorem sends (h : n.Named) {w : WireType} {v : w.Value} (hsends : n.Sends w v) :
    ∀ c ∈ w.claims v, c.address ≠ "" := by
  intro c hc
  cases hsends with
  | joinRequest _ => exact absurd hc List.not_mem_nil
  | joinResponse hanswer =>
      obtain ⟨-, ⟨effects, hassert⟩, hmembership, -⟩ := answerJoin_eq_ok hanswer
      have hafter := h.heeds (heeds_of_assert hassert)
      rw [WireType.claims, hmembership] at hc
      exact hafter.table.snapshot hc
  | pingRequest => exact h.issued hc
  | pingResponse hanswer =>
      obtain ⟨n₁, effects, hupdate, -, rfl⟩ := answerPing_eq_done hanswer
      exact (h.heeds (heeds_of_update hupdate)).answered hc
  | pingReqRequest target chance => exact h.issued hc
  | pingReqResponse now request reached => exact h.answered hc

end Named

/-- Settings are no message. -/
theorem Sends.isWhole {w : WireType} {v : w.Value} (h : n.Sends w v) : ∀ d ∈ w.durations v, d.IsWhole := by
  cases h <;> exact WireType.isWhole_of_ne (by decide) _

end Node

/-! ## Every act -/

namespace Process

variable {now : Moment} {p q : Process}

/-- **What every step keeps.** -/
theorem named_of_step (h : p.node.Named) (hstep : Step now p q) : q.node.Named := by
  cases hstep with
  | idle => exact h
  | move hperform =>
      obtain ⟨n₁, hheeds, hadjusts⟩ := Node.adjusts_of_perform hperform
      exact (h.heeds hheeds).idle hadjusts.idles
  | enter _ => exact h.congr rfl (List.Subset.refl _)
  | announce _ hassert => exact h.heeds (Node.heeds_of_assert hassert)
  | fail _ => exact h.idle (.failBootstrap p.node)
  | @complete _ snapshots _ _ _ hcomplete =>
      exact (h.settled (.adopt snapshots) (p.node.settle_adopt now snapshots)).settled .openGate hcomplete
  | runOut => exact h.idle (.runOut p.node now)
  | @expire e _ _ _ _ hassert => exact (h.idle (.claim p.node e)).heeds (Node.heeds_of_assert hassert)

/-- **Every act keeps a node named**, whether it is completed or stops. -/
theorem named_of_act (h : p.node.Named) (now : Moment) (act : Act) :
    (act.perform now p).state.node.Named := by
  cases hact : act.perform now p with
  | done q out => exact named_of_step h (step_of_perform hact)
  | exhausted q =>
      cases halts_of_perform hact with
      | move hstops => exact h.stops hstops
      | announce _ hstops => exact h.stops hstops
      | @complete _ snapshots _ _ hcomplete =>
          have hadopted := h.settled (.adopt snapshots) (p.node.settle_adopt now snapshots)
          exact hadopted.stopped .openGate hcomplete
      | @expire e _ hstops => exact (h.idle (.claim p.node e)).stops hstops

/-- A run that goes on after stops keeps the node named. -/
theorem named_persist (h : p.node.Named) (acts : List (Moment × Act)) :
    (p.persist acts).node.Named := by
  induction acts generalizing p with
  | nil => exact h
  | cons entry rest ih => exact ih (named_of_act h entry.1 entry.2)

/-- A node that was just created is named, as it holds no claim. -/
theorem named_createWith {hash : HashFunction} {address : String} {settings : Settings}
    {chance : Chance} {n : Node} (h : Node.createWith hash address settings chance = .ok n) :
    n.Named := by
  obtain ⟨-, rfl⟩ := Node.createWith_eq_ok h
  exact ⟨fun _ hrow => absurd hrow List.not_mem_nil, fun _ hc => absurd hc List.not_mem_nil,
    fun _ hp => absurd hp List.not_mem_nil⟩

/-- **What is written comes back, and nothing that a node sends is lost.**

    A value of any type comes back as it was exactly if none of its leniently read claims is about
    nobody, and its durations are whole milliseconds, fewer than 2^64 of them. Such is every value that
    has been read, whatever it was read from; so it comes back when it is written again. And whatever
    happens to a new node, in any order, and also after an act that has stopped: nothing that it holds
    is about nobody, and all that it sends comes back as it was. -/
theorem messages_arrive_whole :
    (∀ (w : WireType) (v : w.Value), w.read (w.write v) = some v ↔
      (∀ c ∈ w.claims v, c.address ≠ "") ∧ ∀ d ∈ w.durations v, d.IsWhole) ∧
    (∀ (w : WireType) (j : Json) (v : w.Value), w.read j = some v →
      (∀ c ∈ w.claims v, c.address ≠ "") ∧ (∀ d ∈ w.durations v, d.IsWhole) ∧
        w.read (w.write v) = some v) ∧
    (∀ hash address settings chance node acts,
      Node.createWith hash address settings chance = .ok node →
      ((start node).persist acts).node.Named ∧
      ∀ (w : WireType) (v : w.Value), ((start node).persist acts).node.Sends w v →
        w.read (w.write v) = some v) := by
  refine ⟨WireType.read_write_eq_iff, fun w j v hread => ?_,
    fun hash address settings chance node acts hnode => ?_⟩
  · have hnamed := WireType.named_of_read hread
    have hwhole := WireType.isWhole_of_read hread
    exact ⟨hnamed, hwhole, (w.read_write_eq_iff v).mpr ⟨hnamed, hwhole⟩⟩
  · have hnamed : ((start node).persist acts).node.Named := named_persist (named_createWith hnode) acts
    exact ⟨hnamed, fun w v hsends => (w.read_write_eq_iff v).mpr ⟨hnamed.sends hsends, hsends.isWhole⟩⟩

/-- The node `a` is pinged with a claim about nobody and one about `b`. Such a ping does not arrive as it
    was; the next ping of the node does, and tells of `b`. -/
theorem messages_arrive_whole_after_malformed_claim :
    ∃ node p ping,
      Node.createWith hash32 "a" { Settings.default with replicaPoints := 2 } .none = .ok node ∧
      ping = ⟨none, [⟨"", .faulty, 9, "c", 1, 8⟩, ⟨"b", .alive, 5, "c", 1, 8⟩], "c", 1⟩ ∧
      (start node).persist
        [(⟨7, 0⟩, .enter 0), (⟨7, 0⟩, .announce 0), (⟨8, 1⟩, .complete 0 []),
          (⟨9, 2⟩, .move (.answerPing ping))] = p ∧
      PingRequest.ofJson? ping.toJson ≠ some ping ∧
      p.node.composePing.2.changes =
        [⟨"a", .alive, 7, "a", 0, 7⟩, ⟨"b", .alive, 5, "c", 1, 8⟩] ∧
      PingRequest.ofJson? p.node.composePing.2.toJson = some p.node.composePing.2 := by
  have hnode : Node.createWith hash32 "a" { Settings.default with replicaPoints := 2 } .none =
      .ok _ := rfl
  obtain ⟨hwhole, -, hsends⟩ := messages_arrive_whole
  refine ⟨_, _, _, hnode, rfl, rfl, fun harrives => ?_, by decide +kernel, ?_⟩
  · exact ((hwhole .pingRequest _).mp harrives).1 _ List.mem_cons_self rfl
  · exact (hsends _ _ _ _ _ _ hnode).2 .pingRequest _ .pingRequest

end Process

end GossipRing
