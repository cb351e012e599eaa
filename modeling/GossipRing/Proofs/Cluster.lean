import GossipRing.Proofs.NodeSteps
import GossipRing.Proofs.WireRoundTrip

/-!
# Any number of nodes on a network that keeps no promise

Toward: only a member mints its own incarnations. Nodes take turns in any order, each a step of
`Node/` at any reading of the clocks. What is sent may be lost, delayed, repeated and reordered, and
what a node has put off it may take up at any later time, more than once, or never.

* **`Item`** — a request, an answer, or a task that a node has put off.
* **`Cluster`** — the nodes, and all items there ever were. A turn takes what it needs from them and
  removes nothing, so every fate of a message is one of the runs.
* **`Cluster.Turn`** — what a node can do next: one case for each uninterrupted step. A turn that
  would need an incarnation above the largest one is not taken.
* **`Cluster.Sound`** — the invariant, with `Turn.sourced` for one turn, `Sound.after` for the
  cluster and `Reachable.sound` for every run. Its last field is what is wanted: every mention of a
  node is backed by the node itself.
-/

namespace GossipRing

/-! ## Items -/

/-- What a node asks another one. -/
inductive Request where
  | join (r : JoinRequest)
  | ping (r : PingRequest)
  | pingReq (r : PingReqRequest)

/-- What the other one answers. -/
inductive Response where
  | join (r : JoinResponse)
  | ping (r : PingResponse)
  | pingReq (r : PingReqResponse)

/-- What a node has put off. -/
inductive Task (ι : Type) where
  /-- The probe of a member that was picked. -/
  | probe (target : Member)
  /-- A ping-req that waits for the ping of its target. -/
  | relay (asker : ι) (request : PingReqRequest)
  | join (join : Join)
  | expiry (expiry : Expiry)

/-- What is on its way, or waits for its turn. -/
inductive Item (ι : Type) where
  | request (sender : ι) (target : String) (request : Request)
  | answer (asker : ι) (response : Response)
  | task (owner : ι) (task : Task ι)

section

variable {ι : Type}

def Request.mentions : Request → Set Mention
  | join r => {x | (r.source, r.incarnation) = x}
  | ping r => mentionsOf r.changes
  | pingReq r => mentionsOf r.changes

def Response.mentions : Response → Set Mention
  | join r => mentionsOf r.membership
  | ping r => mentionsOf r.changes
  | pingReq r => mentionsOf r.changes

def Task.mentions : Task ι → Set Mention
  | probe target => {x | target.mention = x}
  | relay _ r => mentionsOf r.changes
  | join j => j.mentions
  | expiry e => {x | e.mention = x}

def Item.mentions : Item ι → Set Mention
  | request _ _ r => r.mentions
  | answer _ r => r.mentions
  | task _ t => t.mentions

/-! ## Clusters -/

/-- Nodes, and all that was ever sent or put off. -/
structure Cluster (ι : Type) where
  nodes : ι → Node
  items : Set (Item ι)

namespace Cluster

/-- What is mentioned by messages and tasks. -/
def afoot (w : Cluster ι) : Set Mention := {x | ∃ item ∈ w.items, x ∈ item.mentions}

/-- What is mentioned anywhere. -/
def mentions (w : Cluster ι) : Set Mention :=
  {x | (∃ i, x ∈ (w.nodes i).mentions) ∨ x ∈ w.afoot}

/-- What node `i` can do next, with the node after it and the new items. -/
inductive Turn (w : Cluster ι) (i : ι) (now : Moment) : Node → Set (Item ι) → Prop
  -- bootstrapping
  | beginBootstrap {n' : Node} {outcome : Except NodeError Unit}
      (hdone : (w.nodes i).beginBootstrap now = .done n' outcome) : Turn w i now n' ∅
  | beginJoin {hosts : List String} {join : Join} (hbegun : (w.nodes i).bootstrapped)
      (hjoin : (w.nodes i).beginJoin now hosts = some join) :
      Turn w i now (w.nodes i) {.task i (.join join)}
  | startAlone {n' : Node} {hosts : List String} {effects : List Change}
      (hbegun : (w.nodes i).bootstrapped) (hjoin : (w.nodes i).beginJoin now hosts = none)
      (hdone : (w.nodes i).completeBootstrap now [] = .done n' effects) : Turn w i now n' ∅
  | nextRound {join : Join} (h : .task i (.join join) ∈ w.items) (chance : Chance) :
      Turn w i now (w.nodes i) {.task i (.join (join.nextRound chance).1)}
  | askHost {join : Join} {host : String} {rest : List String}
      (h : .task i (.join join) ∈ w.items) (hhost : join.asking = host :: rest) :
      Turn w i now (w.nodes i) {.request i host (.join join.request)}
  | hearHost {join : Join} {host : String} {rest : List String} {sent received : JoinResponse}
      (h : .task i (.join join) ∈ w.items) (hhost : join.asking = host :: rest)
      (hsent : .answer i (.join sent) ∈ w.items)
      (hread : JoinResponse.ofJson? sent.toJson = some received) :
      Turn w i now (w.nodes i) {.task i (.join (join.take host (some received)))}
  | missHost {join : Join} {host : String} {rest : List String}
      (h : .task i (.join join) ∈ w.items) (hhost : join.asking = host :: rest) :
      Turn w i now (w.nodes i) {.task i (.join (join.take host none))}
  | pauseJoin {join : Join} (h : .task i (.join join) ∈ w.items) (chance : Chance) :
      Turn w i now (w.nodes i) {.task i (.join (join.pause chance).2.1)}
  | completeBootstrap {n' : Node} {join : Join} {effects : List Change}
      (h : .task i (.join join) ∈ w.items) (hcomplete : join.isComplete)
      (hdone : (w.nodes i).completeBootstrap now (join.joined.map Prod.snd) = .done n' effects) :
      Turn w i now n' ∅
  | failBootstrap {join : Join} (h : .task i (.join join) ∈ w.items) :
      Turn w i now (w.nodes i).failBootstrap ∅
  -- probing
  | pick {n' : Node} {target : Member} {chance chance' : Chance}
      (hpick : (w.nodes i).pickTarget chance = (some target, n', chance')) :
      Turn w i now n' {.task i (.probe target)}
  | pickNobody {n' : Node} {chance chance' : Chance}
      (hpick : (w.nodes i).pickTarget chance = (none, n', chance')) : Turn w i now n' ∅
  | ping {target : Member} (h : .task i (.probe target) ∈ w.items) :
      Turn w i now (w.nodes i).composePing.1
        {.request i target.address (.ping (w.nodes i).composePing.2)}
  | hearPong {n' : Node} {sent received : PingResponse} {effects : List Change}
      (hsent : .answer i (.ping sent) ∈ w.items)
      (hread : PingResponse.ofJson? sent.toJson = some received)
      (hdone : (w.nodes i).absorb now received.changes = .done n' effects) : Turn w i now n' ∅
  | askHelpers {n' : Node} {target : Member} {helpers : List Member} {request : PingReqRequest}
      {chance chance' : Chance} (h : .task i (.probe target) ∈ w.items)
      (hcompose : (w.nodes i).composePingReq target chance = (helpers, request, n', chance')) :
      Turn w i now n' {item | ∃ helper ∈ helpers, item = .request i helper.address (.pingReq request)}
  | hearReport {n' : Node} {sent received : PingReqResponse} {effects : List Change}
      (hsent : .answer i (.pingReq sent) ∈ w.items)
      (hread : PingReqResponse.ofJson? sent.toJson = some received)
      (hdone : (w.nodes i).absorb now received.changes = .done n' effects) : Turn w i now n' ∅
  | judge {n' : Node} {target : Member} {effects : List Change} (verdict : Verdict)
      (h : .task i (.probe target) ∈ w.items)
      (hdone : (w.nodes i).judge now target verdict = .done n' effects) : Turn w i now n' ∅
  | runOut : Turn w i now ((w.nodes i).runOut now).1
      {item | ∃ e ∈ ((w.nodes i).runOut now).2, item = .task i (.expiry e)}
  | expire {n' : Node} {e : Expiry} {effects : List Change} (h : .task i (.expiry e) ∈ w.items)
      (hdone : (w.nodes i).expire now e = .done n' effects) : Turn w i now n' ∅
  -- answering
  | answerJoin {n' : Node} {sender : ι} {sent received : JoinRequest} {response : JoinResponse}
      (hsent : .request sender (w.nodes i).address (.join sent) ∈ w.items)
      (hread : JoinRequest.ofJson? sent.toJson = some received)
      (hdone : (w.nodes i).answerJoin now received = .done n' (.ok response)) :
      Turn w i now n' {.answer sender (.join response)}
  | answerPing {n' : Node} {sender : ι} {sent received : PingRequest} {response : PingResponse}
      (hsent : .request sender (w.nodes i).address (.ping sent) ∈ w.items)
      (hread : PingRequest.ofJson? sent.toJson = some received)
      (hdone : (w.nodes i).answerPing now received = .done n' response) :
      Turn w i now n' {.answer sender (.ping response)}
  | receivePingReq {n' : Node} {sender : ι} {sent received : PingReqRequest}
      {effects : List Change} (hsent : .request sender (w.nodes i).address (.pingReq sent) ∈ w.items)
      (hread : PingReqRequest.ofJson? sent.toJson = some received)
      (hdone : (w.nodes i).receivePingReq now received = .done n' effects) :
      Turn w i now n' {.task i (.relay sender received)}
  | relayPing {sender : ι} {request : PingReqRequest}
      (h : .task i (.relay sender request) ∈ w.items) :
      Turn w i now (w.nodes i).composePing.1
        {.request i request.target (.ping (w.nodes i).composePing.2)}
  | answerPingReq {sender : ι} {request : PingReqRequest} (reached : Bool)
      (h : .task i (.relay sender request) ∈ w.items) :
      Turn w i now ((w.nodes i).answerPingReq now request reached).1
        {.answer sender (.pingReq ((w.nodes i).answerPingReq now request reached).2)}
  -- control
  | startGossip : Turn w i now (w.nodes i).startGossip.1 ∅
  | stopGossip : Turn w i now (w.nodes i).stopGossip.1 ∅
  | leave {n' : Node} {outcome : Except NodeError Unit}
      (hdone : (w.nodes i).leave now = .done n' outcome) : Turn w i now n' ∅
  | rejoin {n' : Node} {outcome : Except NodeError Unit}
      (hdone : (w.nodes i).rejoin now = .done n' outcome) : Turn w i now n' ∅
  | reap {n' : Node} {reaped : List String}
      (hdone : (w.nodes i).reap now = .done n' reaped) : Turn w i now n' ∅
  | configure {n' : Node} {patch : Json} (hdone : (w.nodes i).configure patch = .ok n') :
      Turn w i now n' ∅
  | destroy : Turn w i now (w.nodes i).destroy ∅

/-- The cluster after a turn of node `i`. -/
def after [DecidableEq ι] (w : Cluster ι) (i : ι) (n : Node) (new : Set (Item ι)) : Cluster ι where
  nodes := Function.update w.nodes i n
  items := w.items ∪ new

/-- New nodes with addresses of their own, before anything was sent. -/
structure Fresh (w : Cluster ι) : Prop where
  created : ∀ i, ∃ hash address settings chance,
    Node.createWith hash address settings chance = .ok (w.nodes i)
  named : ∀ i, (w.nodes i).address ≠ ""
  distinct : ∀ i j, (w.nodes i).address = (w.nodes j).address → i = j
  quiet : w.items = ∅

/-- The clusters that new nodes come to by turns. -/
inductive Reachable [DecidableEq ι] : Cluster ι → Prop
  | fresh {w : Cluster ι} (h : w.Fresh) : Reachable w
  | turn {w : Cluster ι} {n : Node} {new : Set (Item ι)} (h : Reachable w) (i : ι) (now : Moment)
      (hturn : w.Turn i now n new) : Reachable (w.after i n new)

/-! ## One turn -/

/-- Every mention of a node is backed by the node: it knows itself, at that incarnation or a greater
    one. -/
structure Sound (w : Cluster ι) : Prop where
  named : ∀ i, (w.nodes i).address ≠ ""
  distinct : ∀ i j, (w.nodes i).address = (w.nodes j).address → i = j
  here : ∀ i, (w.nodes i).membership.here = (w.nodes i).address
  known : ∀ i, (w.nodes i).bootstrapped → (w.nodes i).membership.Owns 0
  backed : ∀ x ∈ w.mentions, ∀ i, (w.nodes i).address = x.1 → (w.nodes i).membership.Owns x.2

section

variable {w : Cluster ι} {i : ι} {now : Moment} {n' : Node} {new : Set (Item ι)}

theorem mentions_subset_afoot {item : Item ι} (h : item ∈ w.items) : item.mentions ⊆ w.afoot :=
  fun _ hx => ⟨item, h, hx⟩

/-- What is read of claims that were sent was mentioned. -/
theorem wellFormed_subset_afoot {item : Item ι} {changes : List Change} (h : item ∈ w.items)
    (hmentions : item.mentions = mentionsOf changes) :
    mentionsOf (Change.wellFormed changes) ⊆ w.afoot := by
  rintro x ⟨c, hc, rfl⟩
  refine ⟨item, h, ?_⟩
  rw [hmentions]
  exact ⟨c, Change.mem_of_mem_wellFormed hc, rfl⟩

/-- An item is passed on that mentions what was afoot. -/
theorem sourced_of_afoot {item : Item ι} {n : Node} (h : item.mentions ⊆ w.afoot) :
    ∀ sent ∈ ({item} : Set (Item ι)), ∀ x ∈ sent.mentions,
      Node.Sourced w.afoot (w.nodes i) n x := by
  rintro sent rfl x hx
  exact Or.inr (Or.inl (h hx))

/-- An item is made of what the node holds. -/
theorem sourced_of_held {item : Item ι} {n : Node} (h : item.mentions ⊆ (w.nodes i).mentions) :
    ∀ sent ∈ ({item} : Set (Item ι)), ∀ x ∈ sent.mentions,
      Node.Sourced w.afoot (w.nodes i) n x := by
  rintro sent rfl x hx
  exact Or.inl (h hx)

/-- **A turn makes up nothing**: what the node holds after it, and what it sends or puts off, was held,
    was afoot, or is minted. -/
theorem Turn.sourced (hw : w.Sound) (h : w.Turn i now n' new) :
    (w.nodes i).Inherits w.afoot n' ∧
      ∀ item ∈ new, ∀ x ∈ item.mentions, Node.Sourced w.afoot (w.nodes i) n' x := by
  have hnothing : ∀ {n : Node}, ∀ item ∈ (∅ : Set (Item ι)), ∀ x ∈ item.mentions,
      Node.Sourced w.afoot (w.nodes i) n x := fun item hitem => absurd hitem (Set.notMem_empty item)
  -- what a turn writes or sends was held by the node, was afoot, or is minted by the node itself
  cases h with
  | beginBootstrap hdone =>
      exact ⟨Node.beginBootstrap_inherits (hw.here i) (hw.named i) hdone, hnothing⟩
  | beginJoin hbegun hjoin =>
      refine ⟨.refl _ _, ?_⟩
      rintro item rfl x hx
      exact Or.inr (Or.inr (Node.beginJoin_mints (hw.here i) (hw.known i hbegun) hjoin x hx))
  | startAlone hbegun hjoin hdone =>
      exact ⟨Node.completeBootstrap_inherits (fun s hs => absurd hs List.not_mem_nil) hdone,
        hnothing⟩
  | nextRound h chance =>
      exact ⟨.refl _ _, sourced_of_afoot fun x hx => mentions_subset_afoot h hx⟩
  | askHost h hhost =>
      exact ⟨.refl _ _, sourced_of_afoot fun x hx => mentions_subset_afoot h (Or.inl hx)⟩
  | @hearHost join host rest sent received h hhost hsent hread =>
      rw [JoinResponse.ofJson?_toJson] at hread
      obtain rfl := Option.some.inj hread
      refine ⟨.refl _ _, sourced_of_afoot fun x hx => ?_⟩
      rcases Join.mentions_take hx with hold | ⟨r, hr, hx⟩
      · exact mentions_subset_afoot h hold
      · obtain rfl := Option.some.inj hr
        exact wellFormed_subset_afoot hsent rfl hx
  | missHost h hhost =>
      exact ⟨.refl _ _, sourced_of_afoot fun x hx => mentions_subset_afoot h hx⟩
  | pauseJoin h chance =>
      exact ⟨.refl _ _, sourced_of_afoot fun x hx => mentions_subset_afoot h hx⟩
  | completeBootstrap h hcomplete hdone =>
      refine ⟨Node.completeBootstrap_inherits (fun s hs => ?_) hdone, hnothing⟩
      exact (Join.mentions_snapshots hs).trans (mentions_subset_afoot h)
  | failBootstrap h => exact ⟨(Node.Idles.failBootstrap _).inherits _, hnothing⟩
  | pick hpick =>
      refine ⟨(Node.Idles.pickTarget hpick).inherits _, sourced_of_held fun x hx => ?_⟩
      exact Or.inl (Or.inl ⟨_, Node.mem_of_pickTarget hpick, hx⟩)
  | pickNobody hpick => exact ⟨(Node.Idles.pickTarget hpick).inherits _, hnothing⟩
  | ping h =>
      exact ⟨(Node.Idles.issue _).inherits _, sourced_of_held (Node.mentionsOf_issue _)⟩
  | hearPong hsent hread hdone =>
      rw [PingResponse.ofJson?_toJson] at hread
      obtain rfl := Option.some.inj hread
      exact ⟨Node.absorb_inherits (wellFormed_subset_afoot hsent rfl) hdone, hnothing⟩
  | askHelpers h hcompose =>
      obtain ⟨hin, hhanded⟩ := Node.composePingReq_inherits hcompose
      refine ⟨hin, ?_⟩
      rintro item ⟨helper, -, rfl⟩ x hx
      exact Or.inl (hhanded hx)
  | hearReport hsent hread hdone =>
      rw [PingReqResponse.ofJson?_toJson] at hread
      obtain rfl := Option.some.inj hread
      exact ⟨Node.absorb_inherits (wellFormed_subset_afoot hsent rfl) hdone, hnothing⟩
  | judge verdict h hdone =>
      exact ⟨Node.judge_inherits (mentions_subset_afoot h rfl) hdone, hnothing⟩
  | runOut =>
      refine ⟨(Node.Idles.runOut _ _).inherits _, ?_⟩
      rintro item ⟨e, he, rfl⟩ x rfl
      exact Or.inl (Node.mention_mem_of_runOut he)
  | expire h hdone => exact ⟨Node.expire_inherits (mentions_subset_afoot h rfl) hdone, hnothing⟩
  | answerJoin hsent hread hdone =>
      rw [JoinRequest.ofJson?_toJson] at hread
      obtain rfl := Option.some.inj hread
      obtain ⟨hin, hanswer⟩ := Node.answerJoin_inherits (mentions_subset_afoot hsent rfl) hdone
      exact ⟨hin, fun item hitem => hitem ▸ hanswer⟩
  | answerPing hsent hread hdone =>
      rw [PingRequest.ofJson?_toJson] at hread
      obtain rfl := Option.some.inj hread
      obtain ⟨hin, hanswer⟩ := Node.answerPing_inherits (wellFormed_subset_afoot hsent rfl) hdone
      exact ⟨hin, fun item hitem => hitem ▸ hanswer⟩
  | receivePingReq hsent hread hdone =>
      rw [PingReqRequest.ofJson?_toJson] at hread
      obtain rfl := Option.some.inj hread
      have hgiven := wellFormed_subset_afoot hsent rfl
      exact ⟨Node.update_inherits hgiven hdone, sourced_of_afoot hgiven⟩
  | relayPing h =>
      exact ⟨(Node.Idles.issue _).inherits _, sourced_of_held (Node.mentionsOf_issue _)⟩
  | answerPingReq reached h =>
      exact ⟨(Node.Idles.answerWith _ _ _).inherits _,
        sourced_of_held (Node.mentionsOf_answerWith _ _ _)⟩
  | startGossip => exact ⟨(Node.Idles.startGossip _).inherits _, hnothing⟩
  | stopGossip => exact ⟨(Node.Idles.stopGossip _).inherits _, hnothing⟩
  | leave hdone => exact ⟨Node.leave_inherits hdone, hnothing⟩
  | rejoin hdone => exact ⟨Node.rejoin_inherits hdone, hnothing⟩
  | reap hdone => exact ⟨Node.reap_inherits hdone, hnothing⟩
  | configure hdone => exact ⟨(Node.Idles.configure hdone).inherits _, hnothing⟩
  | destroy => exact ⟨(Node.Idles.destroy _).inherits _, hnothing⟩

/-! ## The cluster after it -/

variable [DecidableEq ι]

theorem nodes_after_self (w : Cluster ι) (i : ι) (n : Node) (new : Set (Item ι)) :
    (w.after i n new).nodes i = n := by
  simp only [after, Function.update_self]

theorem nodes_after_of_ne {j : ι} (hj : j ≠ i) (w : Cluster ι) (n : Node) (new : Set (Item ι)) :
    (w.after i n new).nodes j = w.nodes j := by
  simp only [after, Function.update_of_ne hj]

/-- A turn of one node leaves the others alone. -/
theorem Turn.inherits (hw : w.Sound) (h : w.Turn i now n' new) (j : ι) :
    (w.nodes j).Inherits w.afoot ((w.after i n' new).nodes j) := by
  by_cases hj : j = i
  · subst hj
    rw [nodes_after_self]
    exact (h.sourced hw).1
  · rw [nodes_after_of_ne hj]
    exact .refl _ _

/-- What has a source is backed after the turn: what was backed before still is, as nobody goes back
    to a smaller incarnation, and what a node mints is about that node, no other having its
    address. -/
theorem Turn.backed (hw : w.Sound) (h : w.Turn i now n' new) {j k : ι} {x : Mention}
    (hx : Node.Sourced w.afoot (w.nodes j) ((w.after i n' new).nodes j) x)
    (hk : ((w.after i n' new).nodes k).address = x.1) :
    ((w.after i n' new).nodes k).membership.Owns x.2 := by
  have hj := h.inherits hw j
  have hlater := h.inherits hw k
  have hbefore : x ∈ w.mentions → ((w.after i n' new).nodes k).membership.Owns x.2 := fun hmention =>
    hlater.owns (hw.backed x hmention k (hlater.address.symm.trans hk))
  rcases hx with hheld | hafoot | ⟨hlocal, howns⟩
  · exact hbefore (Or.inl ⟨j, hheld⟩)
  · exact hbefore (Or.inr hafoot)
  · have hsame : (w.nodes k).address = (w.nodes j).address :=
      calc (w.nodes k).address
        _ = x.1 := hlater.address.symm.trans hk
        _ = (w.nodes j).membership.here := hlocal.trans hj.here
        _ = (w.nodes j).address := hw.here j
    rw [hw.distinct k j hsame]
    exact howns

/-- **A turn keeps every mention backed.** -/
theorem Sound.after (hw : w.Sound) (h : w.Turn i now n' new) : (w.after i n' new).Sound where
  named j := by
    rw [(h.inherits hw j).address]
    exact hw.named j
  distinct j k hjk := by
    rw [(h.inherits hw j).address, (h.inherits hw k).address] at hjk
    exact hw.distinct j k hjk
  here j := by
    rw [(h.inherits hw j).here, (h.inherits hw j).address]
    exact hw.here j
  known j hbegun := by
    rcases (h.inherits hw j).bootstrapped hbegun with hbefore | howns
    · exact (h.inherits hw j).owns (hw.known j hbefore)
    · exact howns
  backed := by
    -- a mention was made by a node, was under way before, or has just been sent
    rintro x (⟨j, hx⟩ | ⟨item, hold | hnew, hx⟩) k hk
    · exact h.backed hw ((h.inherits hw j).mentions x hx) hk
    · exact h.backed hw (j := k) (Or.inr (Or.inl ⟨item, hold, hx⟩)) hk
    · refine h.backed hw (j := i) ?_ hk
      rw [nodes_after_self]
      exact (h.sourced hw).2 item hnew x hx

end

/-! ## Every run -/

/-- New nodes mention nobody. -/
theorem Fresh.sound {w : Cluster ι} (h : w.Fresh) : w.Sound := by
  have hblank : ∀ i, (w.nodes i).membership.here = (w.nodes i).address ∧
      (w.nodes i).bootstrapped = false ∧ (w.nodes i).mentions = ∅ := by
    intro i
    obtain ⟨hash, address, settings, chance, hcreated⟩ := h.created i
    exact Node.createWith_blank hcreated
  refine ⟨h.named, h.distinct, fun i => (hblank i).1, ?_, ?_⟩
  · intro i hbegun
    rw [(hblank i).2.1] at hbegun
    cases hbegun
  · rintro x (⟨i, hx⟩ | ⟨item, hitem, -⟩)
    · rw [(hblank i).2.2] at hx
      exact absurd hx (Set.notMem_empty x)
    · rw [h.quiet] at hitem
      exact absurd hitem (Set.notMem_empty item)

variable [DecidableEq ι]

theorem Reachable.sound {w : Cluster ι} (h : w.Reachable) : w.Sound := by
  induction h with
  | fresh h => exact h.sound
  | turn _ i now hturn ih => exact ih.after hturn

/-- **Only a member mints its own incarnations.** Whatever is said of a node anywhere, the node has a
    row of its own, at the incarnation that is spoken of or a greater one. -/
theorem mentioned_within_own_incarnation {w : Cluster ι} (h : w.Reachable) (i : ι) (inc : UInt64)
    (hmention : ((w.nodes i).address, inc) ∈ w.mentions) :
    ∃ own, (w.nodes i).membership.localRow? = some own ∧ own.address = (w.nodes i).address ∧
      inc ≤ own.incarnation := by
  have hsound := h.sound
  obtain ⟨own, hown, hle⟩ := hsound.backed _ hmention i rfl
  have hlocal : own.address = (w.nodes i).membership.here :=
    (Membership.mem_of_row?_eq_some hown).2
  exact ⟨own, hown, hlocal.trans (hsound.here i), hle⟩

/-- Two new nodes, `a` and `b`. -/
def pair : Cluster Bool where
  nodes i :=
    let address := if i then "b" else "a"
    { address := address
      settings := .default
      membership := .empty address hash32 .none
      ring := .empty Settings.default.replicaPoints.toNat hash32
      piggyback := .empty Settings.default.maxPiggybackCount
      suspicion := .empty address Settings.default.suspicionTimeout
      rotation := .empty
      gossip := .stopped
      bootstrapped := false
      destroyed := false }
  items := ∅

/-- `a` has started alone, and `b` asks it to be taken in. `a` then has a row for `b`, at the
    incarnation that `b` has drawn. -/
theorem mentioned_within_own_incarnation_in_join :
    ∃ w : Cluster Bool, w.Reachable ∧
      (∃ row ∈ (w.nodes false).membership.rows, row.mention = ((w.nodes true).address, 8)) ∧
      ∃ own, (w.nodes true).membership.localRow? = some own ∧
        own.address = (w.nodes true).address ∧ 8 ≤ own.incarnation := by
  have h : pair.Reachable := by
    refine .fresh ⟨?_, by decide, by decide, rfl⟩
    intro i
    refine ⟨hash32, if i then "b" else "a", .default, .none, ?_⟩
    cases i <;> rfl
  -- `a` starts alone
  have h := h.turn false ⟨7, 0⟩ (.beginBootstrap
    (Attempt.eq_done_of_result? (show _ = some (.ok ()) by decide +kernel)))
  have h := h.turn false ⟨7, 1⟩ (.startAlone (by decide +kernel)
    (show Node.beginJoin _ _ ["a"] = none by decide +kernel)
    (Attempt.eq_done_of_result? (show _ = some [] by decide +kernel)))
  -- `b` asks it
  have h := h.turn true ⟨8, 0⟩ (.beginBootstrap
    (Attempt.eq_done_of_result? (show _ = some (.ok ()) by decide +kernel)))
  have h := h.turn true ⟨8, 0⟩ (.beginJoin (by decide +kernel)
    (show Node.beginJoin _ _ ["a"] = some _ from rfl))
  have h := h.turn true ⟨8, 1⟩ (.nextRound (by exact Or.inr rfl) .none)
  have h := h.turn true ⟨8, 1⟩ (.askHost (by exact Or.inr rfl) (show _ = ["a"] by decide +kernel))
  -- it answers
  have h := h.turn false ⟨8, 2⟩ (.answerJoin (by exact Or.inr rfl) (JoinRequest.ofJson?_toJson _)
    (Attempt.eq_done_of_result? (show _ = some (Except.ok _) from rfl)))
  refine ⟨_, h, ?_, mentioned_within_own_incarnation h true 8 (Or.inl ⟨false, Or.inl (Or.inl ?_)⟩)⟩
  · decide +kernel
  · show ∃ row ∈ _, _
    decide +kernel

end Cluster

end

end GossipRing
