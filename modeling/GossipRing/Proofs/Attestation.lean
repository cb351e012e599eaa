import GossipRing.Proofs.Departure
import GossipRing.Proofs.WaitingClaims

/-!
# What a node passes on

Toward: a node vouches for nothing that nobody vouched for before it. Take any condition on members.
If all that a node holds meets it, and all that the node is told, then so does all that it holds
afterwards, but for what the node says of itself.

* **`Vouches`** — all claims of a list meet the condition. **`Indifferent`** — the condition may look
  at the status of a member only to see whether it left.
* **`Membership.Vouched`** — all rows of a table meet it, and all that is held back.
  **`Membership.Shows`**, **`Membership.ShowsLeave`** — what the table says of its own node may be
  taken for granted.
* **`Node.Vouched`** — the same of a node, with its timers. The claims that wait to ride along are
  rows. It is kept by every operation on the table (`Vouched.settle`), by the steps that leave the
  table alone (`Vouched.idle`), and by each step of `Node/`.
-/

namespace GossipRing

/-! ## Conditions on members -/

/-- All claims meet the condition. -/
def Vouches (P : Member → Prop) (claims : List Change) : Prop := ∀ c ∈ claims, P c.toMember

/-- A member that meets the condition does so whatever its status, unless it then has left. -/
def Indifferent (P : Member → Prop) : Prop :=
  ∀ m status, P m → status ≠ Status.leave → P { m with status := status }

/-- The member that a timer watches. -/
def Mention.suspected (x : Mention) : Member := ⟨x.1, .suspect, x.2⟩

variable {P : Member → Prop}

theorem Vouches.mono {Q : Member → Prop} {claims : List Change} (h : Vouches P claims)
    (hweaker : ∀ m, P m → Q m) : Vouches Q claims := fun c hc => hweaker _ (h c hc)

namespace Membership

variable {now : Clock} {m m' : Membership} {op : Op} {effects : List Change} {e : Change}

/-! ## Tables -/

/-- All rows meet the condition, and all that is held back. -/
structure Vouched (P : Member → Prop) (m : Membership) : Prop where
  rows : ∀ row ∈ m.rows, P row
  stash : Vouches P m.gate.stash

/-- If the node's own row says that the node is alive, it meets the condition. -/
def Shows (P : Member → Prop) (m : Membership) : Prop :=
  ∀ row, m.localRow? = some row → row.status = .alive → P row

/-- If it says that the node left, it does so where it would alive. -/
def ShowsLeave (P : Member → Prop) (m : Membership) : Prop :=
  ∀ row, m.localRow? = some row → row.status = .leave → P { row with status := .alive } → P row

namespace Vouched

theorem row? (h : m.Vouched P) {address : String} {row : Member}
    (hrow : m.row? address = some row) : P row :=
  h.rows row (mem_of_row?_eq_some hrow).1

/-- A table that says of its node what this one does. -/
theorem shows (h : m.Vouched P) (hsame : m'.localRow? = m.localRow?) : m'.Shows P :=
  fun _ hrow _ => h.row? (hsame.symm.trans hrow)

theorem snapshot (h : m.Vouched P) (now : Clock) : Vouches P (m.snapshot now) := by
  intro c hc
  obtain ⟨row, hrow, rfl⟩ := List.mem_map.mp hc
  exact h.rows row hrow

/-- What takes effect meets the condition, or says that the node itself is alive. -/
theorem effect (h : m.Vouched P) (htold : Vouches P (op.told now m))
    (happly : op.apply now m = .done m' effects) (he : e ∈ effects) :
    P e.toMember ∨ e.address = m.here ∧ e.status = .alive := by
  rcases op.mem_effects_cases happly he with htold' | hstash | hown
  · exact Or.inl (htold e htold')
  · exact Or.inl (h.stash e hstash)
  · exact Or.inr hown

/-- **An operation that is told nothing else keeps the condition met**, if what the table then says of
    its own node meets it. -/
theorem apply (h : m.Vouched P) (hdistinct : m.Distinct) (htold : Vouches P (op.told now m))
    (happly : op.apply now m = .done m' effects) (hshows : m'.Shows P) : m'.Vouched P where
  rows row hrow := by
    have hafter := hrow
    rw [(op.alike_putAll happly).rows] at hafter
    rcases mem_rows_putAll hafter with hold | ⟨e, he, rfl⟩
    · exact h.rows row hold
    · rcases h.effect htold happly he with hmet | ⟨hlocal, halive⟩
      · exact hmet
      · -- the row is the node's own
        refine hshows e.toMember ?_ halive
        exact (row?_eq_some_iff (hdistinct.apply happly)).mpr
          ⟨hrow, hlocal.trans (op.here_eq happly).symm⟩
  stash c hc := (op.mem_stash_cases happly hc).elim (h.stash c) (htold c)

end Vouched

end Membership

/-! ## Joins -/

/-- The request meets the condition, and all that the hosts have sent. -/
structure Join.Vouched (P : Member → Prop) (j : Join) : Prop where
  request : P ⟨j.request.source, .alive, j.request.incarnation⟩
  joined : ∀ entry ∈ j.joined, Vouches P entry.2.members

namespace Join.Vouched

variable {j : Join}

/-- A host's answer is taken in. -/
theorem take (h : j.Vouched P) (host : String) {answer : Option JoinResponse}
    (hanswer : ∀ r, answer = some r → Vouches P r.membership) : (j.take host answer).Vouched P := by
  cases answer with
  | none => exact ⟨h.request, h.joined⟩
  | some r =>
      rw [Join.take]
      dsimp only
      split
      · refine ⟨h.request, fun entry hentry => ?_⟩
        rcases List.mem_append.mp hentry with hold | hnew
        · exact h.joined entry hold
        · obtain rfl := List.mem_singleton.mp hnew
          exact hanswer r rfl
      · exact ⟨h.request, h.joined⟩

/-- The snapshots that a vouched join has collected are vouched for. -/
theorem snapshots (h : j.Vouched P) : ∀ s ∈ j.joined.map Prod.snd, Vouches P s.members := by
  intro s hs
  obtain ⟨entry, hentry, rfl⟩ := List.mem_map.mp hs
  exact h.joined entry hentry

theorem mono {Q : Member → Prop} (h : j.Vouched P) (hweaker : ∀ m, P m → Q m) : j.Vouched Q :=
  ⟨hweaker _ h.request, fun entry hentry => (h.joined entry hentry).mono hweaker⟩

end Join.Vouched

namespace Node

/-! ## Nodes -/

/-- All that the node holds meets the condition, and the claims that wait are rows. -/
structure Vouched (P : Member → Prop) (n : Node) : Prop where
  truthful : n.Truthful
  named : n.membership.Named
  table : n.membership.Vouched P
  timers : ∀ t ∈ n.suspicion.timers, P t.mention.suspected

variable {now : Moment} {n n' n₁ : Node} {changes effects : List Change}

/-- A new node holds nothing. -/
theorem vouched_createWith (P : Member → Prop) {hash : HashFunction} {address : String}
    {settings : Settings} {chance : Chance}
    (h : createWith hash address settings chance = .ok n) : n.Vouched P := by
  have htruthful := truthful_createWith h
  obtain ⟨-, rfl⟩ := createWith_eq_ok h
  refine ⟨htruthful, ?_, ⟨?_, ?_⟩, ?_⟩
  · exact fun row hrow => absurd hrow List.not_mem_nil
  · exact fun row hrow => absurd hrow List.not_mem_nil
  · exact fun c hc => absurd hc List.not_mem_nil
  · exact fun t ht => absurd ht List.not_mem_nil

namespace Vouched

/-- A weaker condition. -/
theorem mono {Q : Member → Prop} (h : n.Vouched P) (hweaker : ∀ m, P m → Q m) : n.Vouched Q where
  truthful := h.truthful
  named := h.named
  table := ⟨fun row hrow => hweaker _ (h.table.rows row hrow), h.table.stash.mono hweaker⟩
  timers t ht := hweaker _ (h.timers t ht)

/-- What waits to ride along is a row. -/
theorem pending (h : n.Vouched P) {p : Pending} (hp : p ∈ n.piggyback.pending) :
    P p.change.toMember :=
  h.table.row? (h.truthful.mirrors.recorded p hp)

/-- **A step that leaves the table alone.** -/
theorem idle (h : n.Vouched P) (hidle : n.Idles n') : n'.Vouched P where
  truthful := h.truthful.idle hidle
  named := hidle.table ▸ h.named
  table := hidle.table ▸ h.table
  timers t ht := by
    obtain ⟨u, hu, hmention⟩ := hidle.timers t ht
    rw [← hmention]
    exact h.timers u hu

/-- **An operation on the table, with what took effect spread.** -/
theorem settle (h : n.Vouched P) (op : Membership.Op)
    (htold : Vouches P (op.told now.wall n.membership))
    (hdone : n.settle now (op.apply now.wall n.membership) = .done n' effects)
    (hshows : n'.membership.Shows P) : n'.Vouched P := by
  obtain ⟨m, happly, rfl⟩ := settle_eq_done hdone
  have hreported := op.reported now.wall n.membership
  rw [happly] at hreported
  rw [membership_spread] at hshows
  refine ⟨h.truthful.spread now hreported, ?_, ?_, ?_⟩
  · rw [membership_spread]
    exact h.named.apply happly
  · rw [membership_spread]
    exact h.table.apply h.truthful.distinct htold happly hshows
  · intro t ht
    rw [suspicion_spread] at ht
    rcases mem_foldl_track ht with hold | ⟨e, he, hsuspect, hmention⟩
    · exact h.timers t hold
    · -- what starts a timer does not say that the node itself is alive
      rw [← hmention]
      rcases h.table.effect htold happly he with hmet | ⟨-, halive⟩
      · rwa [Change.toMember, hsuspect] at hmet
      · rw [hsuspect] at halive
        cases halive

theorem update (h : n.Vouched P) (hgiven : Vouches P changes)
    (hdone : n.update now changes = .done n' effects) (hshows : n'.membership.Shows P) :
    n'.Vouched P :=
  h.settle (.update changes false) hgiven hdone hshows

/-- An assertion has to be vouched for, unless it says that the node itself is alive. -/
theorem assert (h : n.Vouched P) (row : Member)
    (hgiven : P row ∨ row.status = .alive ∧ row.address = n.membership.here)
    (hdone : n.assert now row.address row.status row.incarnation = .done n' effects)
    (hshows : n'.membership.Shows P) : n'.Vouched P := by
  refine h.settle (.assert row.address row.status row.incarnation) ?_ hdone hshows
  intro c hc
  rw [Membership.Op.told] at hc
  split at hc
  · exact absurd hc List.not_mem_nil
  · next hother =>
    obtain rfl := List.mem_singleton.mp hc
    exact hgiven.resolve_right hother

/-! ## Bootstrapping -/

/-- A node that begins to bootstrap speaks of itself. -/
theorem beginBootstrap (h : n.Vouched P) (hhere : n.membership.here = n.address)
    {outcome : Except NodeError Unit} (hdone : n.beginBootstrap now = .done n' outcome)
    (hshows : n'.membership.Shows P) : n'.Vouched P := by
  rcases beginBootstrap_cases hdone with ⟨rfl, -⟩ | ⟨inc, effects, -, hassert⟩
  · exact h
  · have hbegun : ({ n with bootstrapped := true } : Node).Vouched P :=
      ⟨⟨h.truthful.distinct, h.truthful.mirrors⟩, h.named, h.table, h.timers⟩
    exact hbegun.assert ⟨n.address, .alive, inc⟩ (Or.inr ⟨rfl, hhere.symm⟩) hassert hshows

/-- The join of a node that knows itself says that the node is alive. -/
theorem beginJoin (h : n.Vouched P) (halive : ∀ row, P row → P { row with status := .alive })
    (hhere : n.membership.here = n.address) (hknown : n.membership.Owns 0) {hosts : List String}
    {join : Join} (hjoin : n.beginJoin now hosts = some join) : join.Vouched P := by
  obtain ⟨row, hrow, -⟩ := hknown
  obtain ⟨hsource, hinc, hjoined, -⟩ := beginJoin_eq_some hjoin
  have hlocal : row.address = n.address := (Membership.mem_of_row?_eq_some hrow).2.trans hhere
  have hrequest := halive row (h.table.row? hrow)
  rw [hlocal, ← Membership.localIncarnation_of_localRow? hrow, ← hsource, ← hinc] at hrequest
  refine ⟨hrequest, fun entry hentry => ?_⟩
  rw [hjoined] at hentry
  exact absurd hentry List.not_mem_nil

/-- A bootstrap adopts nothing but what the snapshots said and what waited behind the gate. -/
theorem completeBootstrap (h : n.Vouched P) {snapshots : List Snapshot}
    (hgiven : ∀ s ∈ snapshots, Vouches P s.members)
    (hdone : n.completeBootstrap now snapshots = .done n' effects)
    (hshows : n'.membership.Shows P) : n'.Vouched P := by
  have hadopted : (n.adopt now snapshots).1.Vouched P := by
    refine h.settle (.adopt snapshots) ?_ (settle_adopt n now snapshots) (h.table.shows ?_)
    · intro c hc
      obtain ⟨s, hs, hmem⟩ := List.mem_flatMap.mp hc
      exact hgiven s hs c hmem
    · -- adopting leaves the node's own row alone
      obtain ⟨m, happly, hstate⟩ := settle_eq_done (settle_adopt n now snapshots)
      obtain ⟨rfl, -⟩ := Attempt.done.inj happly
      rw [hstate, membership_spread]
      exact Membership.localRow?_adopt _ _
  exact hadopted.settle .openGate (fun c hc => absurd hc List.not_mem_nil) hdone hshows

/-! ## Control -/

/-- A node that leaves says so in its own row. -/
theorem leave (h : n.Vouched P) (hP : Indifferent P) (hhere : n.membership.here = n.address)
    {outcome : Except NodeError Unit} (hdone : n.leave now = .done n' outcome)
    (hshows : n'.membership.Shows P) (hleaves : n'.membership.ShowsLeave P) : n'.Vouched P := by
  rcases n.leave_cases now with ⟨e, hrefused⟩ | ⟨row, hown, hleave⟩
  · obtain ⟨rfl, -⟩ := Attempt.done.inj (hrefused.symm.trans hdone)
    exact h
  · have hrow := ownRow_eq_ok hown
    obtain ⟨n₁, effects, hassert, hlast⟩ := Attempt.andThen_eq_done (hleave.symm.trans hdone)
    obtain ⟨rfl, rfl⟩ := Attempt.done.inj hlast
    obtain ⟨haway, haddress, -⟩ := away_of_leave hhere h.named hdone
    have hleft : P { row with status := .leave } := by
      refine hleaves _ ?_ rfl (hP row .alive (h.table.row? hrow) (by decide))
      have hlocal : row.address = n.membership.here := (Membership.mem_of_row?_eq_some hrow).2
      rw [haway.left.row, haway.here, haddress, Membership.localIncarnation_of_localRow? hrow,
        hlocal, hhere]
    exact (h.assert { row with status := .leave } (Or.inl hleft) hassert hshows).idle
      (.halt n₁)

/-- Rejoining says nothing but that the node itself is alive. -/
theorem rejoin (h : n.Vouched P) {outcome : Except NodeError Unit}
    (hdone : n.rejoin now = .done n' outcome) (hshows : n'.membership.Shows P) : n'.Vouched P := by
  rcases n.rejoin_cases now with ⟨e, hrefused⟩ | ⟨-, hstop⟩ | ⟨row, inc, hown, hrejoin⟩
  · obtain ⟨rfl, -⟩ := Attempt.done.inj (hrefused.symm.trans hdone)
    exact h
  · cases hstop.symm.trans hdone
  · obtain ⟨n₁, effects, hassert, hlast⟩ := Attempt.andThen_eq_done (hrejoin.symm.trans hdone)
    obtain ⟨rfl, -⟩ := Attempt.done.inj hlast
    have hlocal : row.address = n.membership.here :=
      (Membership.mem_of_row?_eq_some (ownRow_eq_ok hown)).2
    have hresumes := Idles.startGossip { n₁ with suspicion := n₁.suspicion.reenable }
    rw [hresumes.table] at hshows
    exact ((h.assert ⟨row.address, .alive, inc⟩ (Or.inr ⟨rfl, hlocal⟩) hassert hshows).idle
      (.reenable n₁)).idle hresumes

/-- Tombstones stand for faulty rows. -/
theorem reap (h : n.Vouched P) (hP : Indifferent P) {reaped : List String}
    (hdone : n.reap now = .done n' reaped) (hshows : n'.membership.Shows P) : n'.Vouched P := by
  rw [Node.reap] at hdone
  obtain ⟨effects, hupdate, -⟩ := Attempt.map_eq_done hdone
  refine h.update (fun c hc => ?_) hupdate hshows
  obtain ⟨row, hrow, rfl⟩ := List.mem_map.mp hc
  exact hP row .tombstone (h.table.rows row (List.mem_filter.mp hrow).1) (by decide)

/-! ## Probing -/

/-- The changes that ride on a message are vouched for. -/
theorem issued (h : n.Vouched P) : Vouches P n.piggyback.issue.2 := by
  intro c hc
  obtain ⟨p, hp, rfl⟩ := Piggyback.mem_issued hc
  exact h.pending hp

/-- An indirect probe is vouched for as a whole: the node that sends it and the changes it takes
    along. -/
theorem composePingReq (h : n.Vouched P) {target : Member} {chance chance' : Chance}
    {helpers : List Member} {request : PingReqRequest}
    (hcompose : n.composePingReq target chance = (helpers, request, n', chance')) :
    n'.Vouched P ∧ Vouches P request.changes := by
  have hstate : { n with piggyback := n.piggyback.issue.1 } = n' :=
    congrArg (fun r => r.2.2.1) hcompose
  have hchanges : n.piggyback.issue.2 = request.changes :=
    congrArg (fun r => r.2.1.changes) hcompose
  exact ⟨hstate ▸ h.idle (.issue n), hchanges ▸ h.issued⟩

theorem absorb (h : n.Vouched P) (hgiven : Vouches P changes)
    (hdone : n.absorb now changes = .done n' effects) (hshows : n'.membership.Shows P) :
    n'.Vouched P := by
  rw [Node.absorb] at hdone
  split at hdone
  · obtain ⟨rfl, -⟩ := Attempt.done.inj hdone
    exact h
  · exact h.update hgiven hdone hshows

/-- A verdict speaks of the target at the incarnation at which it was picked. -/
theorem judge (h : n.Vouched P) (hP : Indifferent P) {target : Member} {verdict : Verdict}
    (hgiven : P target) (hdone : n.judge now target verdict = .done n' effects)
    (hshows : n'.membership.Shows P) : n'.Vouched P := by
  have hclaim : ∀ {status}, status ≠ .leave →
      n.assert now target.address status target.incarnation = .done n' effects → n'.Vouched P :=
    fun hstatus hassert =>
      h.assert { target with status := _ } (Or.inl (hP target _ hgiven hstatus)) hassert hshows
  cases verdict with
  | reachable => exact hclaim (by decide) hdone
  | unreachable => exact hclaim (by decide) hdone
  | noHelpers => exact hclaim (by decide) hdone
  | inconclusive =>
      obtain ⟨rfl, -⟩ := Attempt.done.inj hdone
      exact h

/-- An expiry tells of a timer. -/
theorem expiries (h : n.Vouched P) {e : Expiry} (he : e ∈ (n.runOut now).2) :
    P e.mention.suspected := by
  obtain ⟨t, ht, hmention⟩ := Suspicion.mem_expiries he
  rw [← hmention]
  exact h.timers t ht

/-- An expiry declares faulty what was vouched for as suspect, which an indifferent property does not
    tell apart. -/
theorem expire (h : n.Vouched P) (hP : Indifferent P) {e : Expiry} (hgiven : P e.mention.suspected)
    (hdone : n.expire now e = .done n' effects) (hshows : n'.membership.Shows P) :
    n'.Vouched P := by
  rw [Node.expire] at hdone
  dsimp only at hdone
  split at hdone
  · exact (h.idle (.claim n e)).assert ⟨e.address, .faulty, e.incarnation⟩
      (Or.inl (hP _ .faulty hgiven (by decide))) hdone hshows
  · obtain ⟨rfl, -⟩ := Attempt.done.inj hdone
    exact h

/-! ## Answering -/

/-- An answer is made of changes that are pending and of rows of the table, both vouched for. -/
theorem answerWith (h : n.Vouched P) (now : Moment) (checksum : Option UInt32) :
    Vouches P (n.answerWith now checksum).2 := by
  intro c hc
  rcases Piggyback.mem_answer hc with ⟨p, hp, rfl⟩ | hsnapshot
  · exact h.pending hp
  · exact h.table.snapshot now.wall c hsnapshot

/-- A join is answered with the whole table, in which the sender is alive as it said. -/
theorem answerJoin (h : n.Vouched P) {r : JoinRequest} {response : JoinResponse}
    (hgiven : P ⟨r.source, .alive, r.incarnation⟩)
    (hdone : n.answerJoin now r = .done n' (.ok response)) (hshows : n'.membership.Shows P) :
    n'.Vouched P ∧ Vouches P response.membership := by
  obtain ⟨-, ⟨effects, hassert⟩, hmembership, -⟩ := answerJoin_eq_ok hdone
  have hafter := h.assert ⟨r.source, .alive, r.incarnation⟩ (Or.inl hgiven) hassert hshows
  rw [hmembership]
  exact ⟨hafter, hafter.table.snapshot now.wall⟩

/-- Answering a ping takes in what the request brought, and what it sends back is vouched for. -/
theorem answerPing (h : n.Vouched P) {r : PingRequest} {response : PingResponse}
    (hgiven : Vouches P r.changes) (hdone : n.answerPing now r = .done n' response)
    (hshows : n'.membership.Shows P) : n'.Vouched P ∧ Vouches P response.changes := by
  obtain ⟨n₁, effects, hupdate, rfl, rfl⟩ := answerPing_eq_done hdone
  have hanswers := Idles.answerWith n₁ now r.checksum
  have hafter := h.update hgiven hupdate (hanswers.table ▸ hshows)
  exact ⟨hafter.idle hanswers, hafter.answerWith now r.checksum⟩

end Vouched

end Node

end GossipRing
