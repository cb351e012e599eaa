import GossipRing.Node.Bootstrap
import GossipRing.Node.Probe
import GossipRing.Node.Requests
import GossipRing.Proofs.Mentions
import GossipRing.Proofs.Routing

/-!
# The steps of a node

Toward: whatever a node does, it mentions nobody at an incarnation that it was not told of, but for
itself. Here this is shown for each step of `Node/`: what the node holds after it is inherited
(`Node.Inherits`), and what it sends or puts off was held before or after.

* **`Node.mentions`**, **`Node.Inherits`** — as for a table, with the claims that wait to ride along
  and the timers.
* **`Node.settle_inherits`** — an operation on the table, with what took effect spread.
* **`Node.Idles`** — a step that leaves the table alone.
* **`Node.beginBootstrap_inherits`** — once a node has begun to bootstrap it knows itself.
-/

namespace GossipRing

/-! ## Claims waiting to ride along -/

namespace Piggyback

variable {b : Piggyback} {p : Pending} {c : Change} {changes : List Change}

/-- Recorded claims wait, and so may those that waited before. -/
theorem mem_recordAll (h : p ∈ (b.recordAll changes).pending) :
    p ∈ b.pending ∨ p.change ∈ changes := by
  induction changes generalizing b with
  | nil => exact Or.inl h
  | cons d rest ih =>
      -- the new claim takes the place of those about its address, and stands last
      rcases ih h with hrecorded | hrest
      · rcases List.mem_append.mp hrecorded with hold | hnew
        · exact Or.inl (List.mem_filter.mp hold).1
        · obtain rfl := List.mem_singleton.mp hnew
          exact Or.inr List.mem_cons_self
      · exact Or.inr (List.mem_cons_of_mem _ hrest)

/-- What still waits has waited before. -/
theorem issue_sublist (b : Piggyback) :
    (b.issue.1.pending.map Pending.change).Sublist (b.pending.map Pending.change) := by
  have hchanges : b.issue.1.pending.map Pending.change =
      (b.pending.filter b.isLive).map Pending.change := List.map_map
  rw [hchanges]
  exact List.filter_sublist.map _

/-- What is handed out has waited. -/
theorem mem_issued (h : c ∈ b.issue.2) : ∃ q ∈ b.pending, q.change = c := by
  obtain ⟨q, hq, rfl⟩ := List.mem_map.mp h
  exact ⟨q, (List.mem_filter.mp hq).1, rfl⟩

/-- Whatever the answer is, one round of hand-outs is spent on it. -/
theorem answer_fst (b : Piggyback) (checksum : Option UInt32) (m : Membership) (now : Clock) :
    (b.answer checksum m now).1 = b.issue.1 := by
  rw [answer]
  dsimp only
  split <;> rfl

/-- What a message is answered with has waited, or is the whole table. -/
theorem mem_answer {checksum : Option UInt32} {m : Membership} {now : Clock}
    (h : c ∈ (b.answer checksum m now).2) :
    (∃ q ∈ b.pending, q.change = c) ∨ c ∈ m.snapshot now := by
  rw [answer] at h
  dsimp only at h
  split at h
  · exact Or.inr h
  · exact Or.inl (mem_issued h)

end Piggyback

/-! ## Timers -/

namespace Suspicion

variable {s : Suspicion} {t : Timer} {now : Nat} {e : Expiry}

theorem mem_stop {address : String} (h : t ∈ (s.stop address).timers) : t ∈ s.timers :=
  (List.mem_filter.mp h).1

/-- A timer that runs was running before, or is that of the member it was started for. -/
theorem mem_start {m : Member} (h : t ∈ (s.start now m).1.timers) :
    t ∈ s.timers ∨ t.mention = m.mention := by
  rw [start] at h
  split at h
  · exact Or.inl h
  · rcases List.mem_append.mp h with hold | hnew
    · exact Or.inl (mem_stop hold)
    · obtain rfl := List.mem_singleton.mp hnew
      exact Or.inr rfl

/-- Running out changes when a timer is due, and nothing that it says. -/
theorem mem_runOut (h : t ∈ (s.runOut now).1.timers) : ∃ u ∈ s.timers, u.mention = t.mention := by
  obtain ⟨u, hu, rfl⟩ := List.mem_map.mp h
  refine ⟨u, hu, ?_⟩
  split <;> rfl

/-- An expiry tells of a timer. -/
theorem mem_expiries (h : e ∈ (s.runOut now).2) : ∃ u ∈ s.timers, u.mention = e.mention := by
  obtain ⟨u, hu, rfl⟩ := List.mem_map.mp h
  exact ⟨u, (List.mem_filter.mp (List.mem_mergeSort.mp hu)).1, rfl⟩

/-- An expiry that counts takes its timer away, and starts none. -/
theorem mem_claim (h : t ∈ (s.claim e).1.timers) : t ∈ s.timers := by
  rw [claim] at h
  split at h
  · exact mem_stop h
  · exact h

end Suspicion

/-! ## Joins -/

namespace Join

/-- What a join mentions: the node itself in the request, and what the hosts have sent. -/
def mentions (j : Join) : Set Mention :=
  {x | (j.request.source, j.request.incarnation) = x ∨
    ∃ entry ∈ j.joined, x ∈ mentionsOf entry.2.members}

/-- What a join has gathered is part of what it mentions. -/
theorem mentions_snapshots {j : Join} {s : Snapshot} (hs : s ∈ j.joined.map Prod.snd) :
    mentionsOf s.members ⊆ j.mentions := by
  obtain ⟨entry, hentry, rfl⟩ := List.mem_map.mp hs
  exact fun x hx => Or.inr ⟨entry, hentry, hx⟩

/-- A host's answer adds what it mentions. -/
theorem mentions_take {j : Join} {host : String} {answer : Option JoinResponse} {x : Mention}
    (h : x ∈ (j.take host answer).mentions) :
    x ∈ j.mentions ∨ ∃ r, answer = some r ∧ x ∈ mentionsOf r.membership := by
  cases answer with
  | none => exact Or.inl h
  | some r =>
      rw [take] at h
      dsimp only at h
      split at h
      · -- the answer of a host that is wanted joins those of the others
        rcases h with hrequest | ⟨entry, hentry, hx⟩
        · exact Or.inl (Or.inl hrequest)
        · rcases List.mem_append.mp hentry with hold | hnew
          · exact Or.inl (Or.inr ⟨entry, hold, hx⟩)
          · obtain rfl := List.mem_singleton.mp hnew
            exact Or.inr ⟨r, rfl, hx⟩
      · exact Or.inl h

end Join

namespace Node

/-- A claim starts a timer only if it says that its member is suspect. -/
theorem mem_track {elapsed : Nat} {s : Suspicion} {t : Timer} {c : Change}
    (h : t ∈ (track elapsed s c).timers) :
    t ∈ s.timers ∨ c.status = .suspect ∧ c.mention = t.mention := by
  rw [track] at h
  split at h
  · next hsuspect => exact (Suspicion.mem_start h).imp_right fun hnew => ⟨hsuspect, hnew.symm⟩
  · exact Or.inl (Suspicion.mem_stop h)

/-- Only a suspicion starts a timer. -/
theorem mem_foldl_track {elapsed : Nat} {s : Suspicion} {t : Timer} {effects : List Change}
    (h : t ∈ (effects.foldl (track elapsed) s).timers) :
    t ∈ s.timers ∨ ∃ e ∈ effects, e.status = .suspect ∧ e.mention = t.mention := by
  induction effects generalizing s with
  | nil => exact Or.inl h
  | cons e rest ih =>
      rcases ih h with htracked | ⟨d, hd, hstarted⟩
      · exact (mem_track htracked).imp_right fun hstarted => ⟨e, List.mem_cons_self, hstarted⟩
      · exact Or.inr ⟨d, List.mem_cons_of_mem _ hd, hstarted⟩

/-! ## What a node holds -/

/-- What a node mentions: in its table, in the claims that wait to ride along, and in its timers. -/
def mentions (n : Node) : Set Mention :=
  {x | x ∈ n.membership.mentions ∨ (∃ p ∈ n.piggyback.pending, p.change.mention = x) ∨
    ∃ t ∈ n.suspicion.timers, t.mention = x}

/-- The mention was held by the node before, was given, or is minted by the node after. -/
def Sourced (given : Set Mention) (n n' : Node) (x : Mention) : Prop :=
  x ∈ n.mentions ∨ x ∈ given ∨ n'.membership.Mints x

/-- The second node is the first one later. It is at no smaller incarnation, mentions nothing that
    has no source, and has not begun to bootstrap without knowing itself. -/
structure Inherits (given : Set Mention) (n n' : Node) : Prop where
  address : n'.address = n.address
  here : n'.membership.here = n.membership.here
  owns : ∀ {inc}, n.membership.Owns inc → n'.membership.Owns inc
  bootstrapped : n'.bootstrapped → n.bootstrapped ∨ n'.membership.Owns 0
  mentions : ∀ x ∈ n'.mentions, Sourced given n n' x

variable {given : Set Mention} {now : Moment} {n n' n₁ : Node} {changes effects : List Change}

/-- What has a source keeps it. -/
theorem Sourced.later {x : Mention} (h : Sourced given n n₁ x) (hin : n₁.Inherits given n') :
    Sourced given n n' x := by
  rcases h with hheld | hgiven | ⟨hlocal, howns⟩
  · exact Or.inl hheld
  · exact Or.inr (Or.inl hgiven)
  · exact Or.inr (Or.inr ⟨hlocal.trans hin.here.symm, hin.owns howns⟩)

namespace Inherits

theorem refl (given : Set Mention) (n : Node) : Inherits given n n where
  address := rfl
  here := rfl
  owns := id
  bootstrapped := Or.inl
  mentions _ := Or.inl

theorem trans (h : Inherits given n n₁) (h' : Inherits given n₁ n') : Inherits given n n' where
  address := h'.address.trans h.address
  here := h'.here.trans h.here
  owns := h'.owns ∘ h.owns
  bootstrapped hbegun := by
    rcases h'.bootstrapped hbegun with hbefore | howns
    · exact (h.bootstrapped hbefore).imp_right h'.owns
    · exact Or.inr howns
  -- what was there midway was there before, or came from where the first step had it from
  mentions x hx := by
    rcases h'.mentions x hx with hmid | hsource
    · exact (h.mentions x hmid).later h'
    · exact Or.inr hsource

/-- What a node held itself need not be given. -/
theorem of_union (h : Inherits (given ∪ n.mentions) n n') : Inherits given n n' where
  address := h.address
  here := h.here
  owns := h.owns
  bootstrapped := h.bootstrapped
  mentions x hx := by
    rcases h.mentions x hx with hold | (hgiven | hold) | hminted
    · exact Or.inl hold
    · exact Or.inr (Or.inl hgiven)
    · exact Or.inl hold
    · exact Or.inr (Or.inr hminted)

end Inherits

/-! ## Steps that leave the table alone -/

/-- An answer hands the claims out that wait, whatever it brings. -/
theorem answerWith_fst (n : Node) (now : Moment) (senderChecksum : Option UInt32) :
    (n.answerWith now senderChecksum).1 = { n with piggyback := n.piggyback.issue.1 } := by
  rw [← Piggyback.answer_fst n.piggyback senderChecksum n.membership now.wall]
  rfl

/-- New settings reach the claims that wait and the timers as well. -/
theorem configure_eq_ok {patch : Json} (h : n.configure patch = .ok n') :
    ∃ merged, n.settings.merge patch = .ok merged ∧
      n' = { n with
        settings := merged
        piggyback := { n.piggyback with limit := merged.maxPiggybackCount }
        suspicion := { n.suspicion with timeout := merged.suspicionTimeout } } := by
  rw [configure] at h
  cases hmerge : n.settings.merge patch with
  | error e =>
      rw [hmerge] at h
      cases h
  | ok merged =>
      rw [hmerge] at h
      dsimp only at h
      split at h
      · cases h
      · exact ⟨merged, rfl, (Except.ok.inj h).symm⟩

/-- The table is as it was, no claim has joined those that wait, and no timer was started. -/
structure Idles (n n' : Node) : Prop where
  address : n'.address = n.address
  table : n'.membership = n.membership
  begun : n'.bootstrapped → n.bootstrapped
  pending : (n'.piggyback.pending.map Pending.change).Sublist
    (n.piggyback.pending.map Pending.change)
  timers : ∀ t ∈ n'.suspicion.timers, ∃ u ∈ n.suspicion.timers, u.mention = t.mention

namespace Idles

/-- The claims that wait are left alone, too. -/
theorem of_fewer_timers (haddress : n'.address = n.address)
    (htable : n'.membership = n.membership) (hbegun : n'.bootstrapped → n.bootstrapped)
    (hpiggyback : n'.piggyback.pending = n.piggyback.pending)
    (htimers : n'.suspicion.timers ⊆ n.suspicion.timers) : n.Idles n' where
  address := haddress
  table := htable
  begun := hbegun
  pending := hpiggyback ▸ List.Sublist.refl _
  timers t ht := ⟨t, htimers ht, rfl⟩

theorem mem_pending (h : n.Idles n') {p : Pending} (hp : p ∈ n'.piggyback.pending) :
    ∃ q ∈ n.piggyback.pending, q.change = p.change :=
  List.mem_map.mp (h.pending.subset (List.mem_map_of_mem hp))

/-- **A step that leaves the table alone** mentions nobody else. -/
theorem inherits (h : n.Idles n') (given : Set Mention) : n.Inherits given n' where
  address := h.address
  here := by rw [h.table]
  owns := by rw [h.table]; exact id
  bootstrapped := Or.inl ∘ h.begun
  mentions x hx := by
    refine Or.inl ?_
    rcases hx with hx | ⟨p, hp, rfl⟩ | ⟨t, ht, rfl⟩
    · exact Or.inl (h.table ▸ hx)
    · obtain ⟨q, hq, hchange⟩ := h.mem_pending hp
      exact Or.inr (Or.inl ⟨q, hq, by rw [hchange]⟩)
    · exact Or.inr (Or.inr (h.timers t ht))

theorem refl (n : Node) : n.Idles n := of_fewer_timers rfl rfl id rfl (List.Subset.refl _)

theorem failBootstrap (n : Node) : n.Idles n.failBootstrap :=
  of_fewer_timers rfl rfl (fun h => nomatch h) rfl (List.Subset.refl _)

theorem startGossip (n : Node) : n.Idles n.startGossip.1 := by
  rw [Node.startGossip]
  split
  · exact refl n
  · exact of_fewer_timers rfl rfl id rfl (List.Subset.refl _)

theorem stopGossip (n : Node) : n.Idles n.stopGossip.1 :=
  of_fewer_timers rfl rfl id rfl (List.Subset.refl _)

theorem destroy (n : Node) : n.Idles n.destroy := by
  rw [Node.destroy]
  split
  · exact refl n
  · exact of_fewer_timers rfl rfl id rfl (List.nil_subset _)

/-- New settings touch no claim that waits, but for how often it will be handed out. -/
theorem configure {patch : Json} (h : n.configure patch = .ok n') : n.Idles n' := by
  obtain ⟨merged, -, rfl⟩ := configure_eq_ok h
  exact of_fewer_timers rfl rfl id rfl (List.Subset.refl _)

theorem pickTarget {chance chance' : Chance} {target : Option Member}
    (h : n.pickTarget chance = (target, n', chance')) : n.Idles n' := by
  obtain rfl : { n with rotation := (n.rotation.next n.membership chance).2.1 } = n' :=
    congrArg (fun r => r.2.1) h
  exact of_fewer_timers rfl rfl id rfl (List.Subset.refl _)

/-- Claims are handed out, and those wait on that may go out again. -/
theorem issue (n : Node) : n.Idles { n with piggyback := n.piggyback.issue.1 } where
  address := rfl
  table := rfl
  begun := id
  pending := n.piggyback.issue_sublist
  timers t ht := ⟨t, ht, rfl⟩

/-- Answering spends one round of hand-outs. -/
theorem answerWith (n : Node) (now : Moment) (checksum : Option UInt32) :
    n.Idles (n.answerWith now checksum).1 := by
  rw [answerWith_fst]
  exact issue n

theorem runOut (n : Node) (now : Moment) : n.Idles (n.runOut now).1 where
  address := rfl
  table := rfl
  begun := id
  pending := List.Sublist.refl _
  timers _ := Suspicion.mem_runOut

/-- An expiry is claimed. -/
theorem claim (n : Node) (e : Expiry) : n.Idles { n with suspicion := (n.suspicion.claim e).1 } :=
  of_fewer_timers rfl rfl id rfl fun _ => Suspicion.mem_claim

/-- All timers are stopped, and probing as well. -/
theorem halt (n : Node) :
    n.Idles { n with suspicion := n.suspicion.stopAll, gossip := .stopped } :=
  of_fewer_timers rfl rfl id rfl (List.nil_subset _)

/-- Timers may be started again. -/
theorem reenable (n : Node) : n.Idles { n with suspicion := n.suspicion.reenable } :=
  of_fewer_timers rfl rfl id rfl (List.Subset.refl _)

end Idles

/-! ## Operations on the table -/

/-- A batch that was completed leaves its table, and its effects are spread through the rest of the
    node. -/
theorem settle_eq_done {outcome : Attempt Membership (List Change)}
    (h : n.settle now outcome = .done n' effects) :
    ∃ m, outcome = .done m effects ∧ n' = spread { n with membership := m } now effects := by
  cases outcome with
  | done m es =>
      obtain ⟨rfl, rfl⟩ := Attempt.done.inj h
      exact ⟨m, rfl, rfl⟩
  | exhausted m => cases h

/-- A batch that stopped leaves its table, and nothing is spread. -/
theorem settle_eq_exhausted {outcome : Attempt Membership (List Change)}
    (h : n.settle now outcome = .exhausted n') :
    ∃ m, outcome = .exhausted m ∧ n' = { n with membership := m } := by
  cases outcome with
  | done m es => cases h
  | exhausted m =>
      obtain rfl := Attempt.exhausted.inj h
      exact ⟨m, rfl, rfl⟩

theorem address_spread (n : Node) (now : Moment) (effects : List Change) :
    (n.spread now effects).address = n.address := by
  rw [spread]
  split <;> rfl

theorem bootstrapped_spread (n : Node) (now : Moment) (effects : List Change) :
    (n.spread now effects).bootstrapped = n.bootstrapped := by
  rw [spread]
  split <;> rfl

theorem settings_spread (n : Node) (now : Moment) (effects : List Change) :
    (n.spread now effects).settings = n.settings := by
  rw [spread]
  split <;> rfl

/-- Effects wait to be handed out, in their order. -/
theorem piggyback_spread (n : Node) (now : Moment) (effects : List Change) :
    (n.spread now effects).piggyback = n.piggyback.recordAll effects := by
  rw [spread]
  split
  · next hempty =>
    rw [List.isEmpty_iff.mp hempty]
    rfl
  · rfl

/-- Spreading adds what the effects mention. -/
theorem mentions_spread {x : Mention} (h : x ∈ (n.spread now effects).mentions) :
    x ∈ n.mentions ∨ x ∈ mentionsOf effects := by
  rw [spread] at h
  split at h
  · exact Or.inl h
  · rcases h with htable | ⟨p, hp, rfl⟩ | ⟨t, ht, rfl⟩
    · exact Or.inl (Or.inl htable)
    · rcases Piggyback.mem_recordAll hp with hold | hnew
      · exact Or.inl (Or.inr (Or.inl ⟨p, hold, rfl⟩))
      · exact Or.inr ⟨p.change, hnew, rfl⟩
    · rcases mem_foldl_track ht with hold | ⟨e, he, -, hmention⟩
      · exact Or.inl (Or.inr (Or.inr ⟨t, hold, rfl⟩))
      · exact Or.inr ⟨e, he, hmention⟩

/-- **An operation on the table, with what took effect spread.** -/
theorem settle_inherits (op : Membership.Op) (hop : op.Within given n.membership)
    (h : n.settle now (op.apply now.wall n.membership) = .done n' effects) :
    n.Inherits given n' := by
  obtain ⟨m, happly, rfl⟩ := settle_eq_done h
  have htable := op.inherits hop happly
  constructor
  · rw [address_spread]
  · rw [membership_spread]
    exact htable.here
  · rw [membership_spread]
    exact htable.owns
  · rw [bootstrapped_spread]
    exact Or.inl
  · -- a mention is in the new table, or was kept elsewhere in the node, or is that of an effect
    intro x hx
    rw [Sourced, membership_spread]
    have hold : ∀ {x}, x ∈ n.membership.mentions ∨ x ∈ given ∨ m.Mints x →
        x ∈ n.mentions ∨ x ∈ given ∨ m.Mints x := Or.imp_left Or.inl
    rcases mentions_spread hx with (htabled | hkept) | ⟨e, he, rfl⟩
    · exact hold (htable.mentions x htabled)
    · exact Or.inl (Or.inr hkept)
    · exact hold (op.mention_of_mem hop happly he)

theorem update_inherits (hgiven : mentionsOf changes ⊆ given)
    (h : n.update now changes = .done n' effects) : n.Inherits given n' :=
  settle_inherits (.update changes false) hgiven h

/-- A claim of the node's own says what the node was given to say, or that the node is alive. -/
theorem assert_inherits {address : String} {status : Status} {inc : UInt64}
    (hgiven : (address, inc) ∈ given ∨ status = .alive ∧ address = n.membership.here)
    (h : n.assert now address status inc = .done n' effects) : n.Inherits given n' :=
  settle_inherits (.assert address status inc) hgiven h

/-- Adopting snapshots is an operation on the table that is always completed. -/
theorem settle_adopt (n : Node) (now : Moment) (snapshots : List Snapshot) :
    n.settle now ((Membership.Op.adopt snapshots).apply now.wall n.membership) =
      .done (n.adopt now snapshots).1 (n.adopt now snapshots).2 := rfl

/-- What adopting says was said before, or stands in the snapshots. -/
theorem adopt_inherits {snapshots : List Snapshot}
    (hgiven : ∀ s ∈ snapshots, mentionsOf s.members ⊆ given) :
    n.Inherits given (n.adopt now snapshots).1 :=
  settle_inherits (.adopt snapshots) hgiven (settle_adopt n now snapshots)

/-- What was held back counts as said by the node already. -/
theorem openGate_inherits (h : n.openGate now = .done n' effects) : n.Inherits given n' :=
  settle_inherits .openGate trivial h

/-! ## Bootstrapping -/

/-- A new node mentions nobody. -/
theorem createWith_blank {hash : HashFunction} {address : String} {settings : Settings}
    {chance : Chance} (h : createWith hash address settings chance = .ok n) :
    n.membership.here = n.address ∧ n.bootstrapped = false ∧ n.mentions = ∅ := by
  obtain ⟨-, rfl⟩ := createWith_eq_ok h
  refine ⟨rfl, rfl, Set.eq_empty_iff_forall_notMem.mpr ?_⟩
  rintro x ((⟨row, hrow, -⟩ | ⟨c, hc, -⟩) | ⟨p, hp, -⟩ | ⟨t, ht, -⟩)
  · exact absurd hrow List.not_mem_nil
  · exact absurd hc List.not_mem_nil
  · exact absurd hp List.not_mem_nil
  · exact absurd ht List.not_mem_nil

/-- The node's own row makes it a mention of its own. -/
theorem mint_mem_mentions {row : Member} (h : n.membership.localRow? = some row) :
    (row.address, row.incarnation) ∈ n.mentions :=
  Or.inl (Or.inl ⟨row, (Membership.mem_of_row?_eq_some h).1, rfl⟩)

/-- A bootstrap is refused, or begins with a claim of the node that it is alive. -/
theorem beginBootstrap_cases {outcome : Except NodeError Unit}
    (h : n.beginBootstrap now = .done n' outcome) :
    (n' = n ∧ outcome ≠ .ok ()) ∨
    ∃ inc effects, n.membership.freshIncarnation? now.wall = some inc ∧
      ({ n with bootstrapped := true } : Node).assert now n.address .alive inc =
        .done n' effects := by
  rw [beginBootstrap] at h
  split at h
  · obtain ⟨rfl, rfl⟩ := Attempt.done.inj h
    exact Or.inl ⟨rfl, nofun⟩
  · split at h
    · obtain ⟨rfl, rfl⟩ := Attempt.done.inj h
      exact Or.inl ⟨rfl, nofun⟩
    · dsimp only at h
      -- the call goes ahead: it stops only where no incarnation is left
      cases hfresh : n.membership.freshIncarnation? now.wall with
      | none =>
          rw [hfresh] at h
          cases h
      | some inc =>
          rw [hfresh] at h
          obtain ⟨effects, hassert, -⟩ := Attempt.map_eq_done h
          exact Or.inr ⟨inc, effects, rfl, hassert⟩

/-- After that claim the node knows itself. -/
theorem owns_of_begun (hhere : n.membership.here = n.address) (hnamed : n.address ≠ "") {inc : UInt64}
    (hfresh : n.membership.freshIncarnation? now.wall = some inc)
    (hassert : ({ n with bootstrapped := true } : Node).assert now n.address .alive inc =
      .done n' effects) : n'.membership.Owns 0 := by
  obtain ⟨m, hdone, rfl⟩ := settle_eq_done hassert
  rw [← hhere] at hdone hnamed
  rw [membership_spread]
  exact (Membership.owns_of_assert hnamed hfresh hdone).mono UInt64.zero_le

/-- **A node that begins to bootstrap knows itself.** -/
theorem beginBootstrap_inherits (hhere : n.membership.here = n.address) (hnamed : n.address ≠ "")
    {outcome : Except NodeError Unit} (h : n.beginBootstrap now = .done n' outcome) :
    n.Inherits given n' := by
  rcases beginBootstrap_cases h with ⟨rfl, -⟩ | ⟨inc, effects, hfresh, hassert⟩
  · exact .refl given n'
  · have hin : ({ n with bootstrapped := true } : Node).Inherits given n' :=
      assert_inherits (Or.inr ⟨rfl, hhere.symm⟩) hassert
    exact ⟨hin.address, hin.here, hin.owns,
      fun _ => Or.inr (owns_of_begun hhere hnamed hfresh hassert), hin.mentions⟩

/-- A join begins with the word of the node. Nobody has been joined yet, and somebody is to be. -/
theorem beginJoin_eq_some {hosts : List String} {join : Join}
    (h : n.beginJoin now hosts = some join) :
    join.request.source = n.address ∧
      join.request.incarnation = n.membership.localIncarnation ∧
      join.joined = [] ∧ (n.settings.joinSize ≠ 0 → 0 < join.wanted) := by
  rw [beginJoin, Join.begin?] at h
  split at h
  · cases h
  · next hpeers =>
    obtain rfl := Option.some.inj h
    refine ⟨rfl, rfl, rfl, fun hsize => Nat.lt_min.mpr ⟨?_, ?_⟩⟩
    · exact Nat.pos_of_ne_zero fun hzero => hsize (UInt64.toNat_inj.mp hzero)
    · exact List.length_pos_iff.mpr fun hnil => hpeers (List.isEmpty_iff.mpr hnil)

/-- The join of a node that knows itself says of it what it mints. -/
theorem beginJoin_mints (hhere : n.membership.here = n.address) (hknown : n.membership.Owns 0)
    {hosts : List String} {join : Join} (h : n.beginJoin now hosts = some join) :
    ∀ x ∈ join.mentions, n.membership.Mints x := by
  obtain ⟨row, hrow, -⟩ := hknown
  obtain ⟨hsource, hinc, hjoined, -⟩ := beginJoin_eq_some h
  rintro x (rfl | ⟨entry, hentry, -⟩)
  · rw [hsource, hinc]
    exact ⟨hhere.symm, Membership.owns_localIncarnation (by rw [hrow]; rfl)⟩
  · rw [hjoined] at hentry
    exact absurd hentry List.not_mem_nil

/-- Adopting and opening the gate say nothing new beyond the snapshots. -/
theorem completeBootstrap_inherits {snapshots : List Snapshot}
    (hgiven : ∀ s ∈ snapshots, mentionsOf s.members ⊆ given)
    (h : n.completeBootstrap now snapshots = .done n' effects) : n.Inherits given n' :=
  (adopt_inherits hgiven).trans (openGate_inherits h)

/-! ## Control -/

/-- The node's own row is that of its table. -/
theorem ownRow_eq_ok {row : Member} (h : n.ownRow = .ok row) :
    n.membership.localRow? = some row := by
  rw [ownRow] at h
  cases hrow : n.membership.localRow? with
  | none =>
      rw [hrow] at h
      cases h
  | some own =>
      rw [hrow] at h
      dsimp only at h
      split at h
      · rw [Except.ok.inj h]
      · cases h

/-- Only a node that has joined gives its own row away. -/
theorem isReady_of_ownRow {row : Member} (h : n.ownRow = .ok row) : n.membership.isReady = true := by
  rw [ownRow, ownRow_eq_ok h] at h
  dsimp only at h
  split at h
  · assumption
  · cases h

theorem ownRow_eq_of_ready {row : Member} (hready : n.membership.isReady = true)
    (hrow : n.membership.localRow? = some row) : n.ownRow = .ok row := by
  rw [ownRow, hrow]
  exact if_pos hready

/-- A departure is refused, or is a claim after which timers and probing stop. -/
theorem leave_cases (now : Moment) (n : Node) :
    (∃ e, n.leave now = .done n (.error e)) ∨
    ∃ row, n.ownRow = .ok row ∧
      n.leave now = (n.assert now row.address .leave row.incarnation).andThen fun n _ =>
        .done { n with suspicion := n.suspicion.stopAll, gossip := .stopped } (.ok ()) := by
  rw [leave]
  cases n.ownRow with
  | error e => exact Or.inl ⟨e, rfl⟩
  | ok row =>
      dsimp only
      split
      · exact Or.inl ⟨_, rfl⟩
      · exact Or.inr ⟨row, rfl, rfl⟩

/-- A return is refused, has no incarnation left to be at, or is a claim after which timers and
    probing go on. -/
theorem rejoin_cases (now : Moment) (n : Node) :
    (∃ e, n.rejoin now = .done n (.error e)) ∨
    (n.membership.freshIncarnation? now.wall = none ∧ n.rejoin now = .exhausted n) ∨
    ∃ row inc, n.ownRow = .ok row ∧
      n.rejoin now = (n.assert now row.address .alive inc).andThen fun n _ =>
        .done { n with suspicion := n.suspicion.reenable }.startGossip.1 (.ok ()) := by
  rw [rejoin]
  -- refused without a row, and refused again unless the row says that the node left
  cases n.ownRow with
  | error e => exact Or.inl ⟨e, rfl⟩
  | ok row =>
      dsimp only
      split
      · exact Or.inl ⟨_, rfl⟩
      · cases n.membership.freshIncarnation? now.wall with
        | none => exact Or.inr (Or.inl ⟨rfl, rfl⟩)
        | some inc => exact Or.inr (Or.inr ⟨row, inc, rfl, rfl⟩)

/-- A node that leaves repeats the incarnation of its own row. -/
theorem leave_inherits {outcome : Except NodeError Unit} (h : n.leave now = .done n' outcome) :
    n.Inherits given n' := by
  rcases n.leave_cases now with ⟨e, hrefused⟩ | ⟨row, hown, hleave⟩
  · obtain ⟨rfl, -⟩ := Attempt.done.inj (hrefused.symm.trans h)
    exact .refl given n
  · obtain ⟨n₁, effects, hassert, hlast⟩ := Attempt.andThen_eq_done (hleave.symm.trans h)
    obtain ⟨rfl, -⟩ := Attempt.done.inj hlast
    have hheld : (row.address, row.incarnation) ∈ given ∪ n.mentions :=
      Or.inr (mint_mem_mentions (ownRow_eq_ok hown))
    exact (assert_inherits (Or.inl hheld) hassert).of_union.trans ((Idles.halt n₁).inherits given)

/-- A node that comes back does so at an incarnation of its own. -/
theorem rejoin_inherits {outcome : Except NodeError Unit} (h : n.rejoin now = .done n' outcome) :
    n.Inherits given n' := by
  rcases n.rejoin_cases now with ⟨e, hrefused⟩ | ⟨-, hstop⟩ | ⟨row, inc, hown, hrejoin⟩
  · obtain ⟨rfl, -⟩ := Attempt.done.inj (hrefused.symm.trans h)
    exact .refl given n
  · cases hstop.symm.trans h
  · obtain ⟨n₁, effects, hassert, hlast⟩ := Attempt.andThen_eq_done (hrejoin.symm.trans h)
    obtain ⟨rfl, -⟩ := Attempt.done.inj hlast
    have hlocal : row.address = n.membership.here :=
      (Membership.mem_of_row?_eq_some (ownRow_eq_ok hown)).2
    refine (assert_inherits (Or.inr ⟨rfl, hlocal⟩) hassert).trans ?_
    exact ((Idles.reenable n₁).inherits given).trans ((Idles.startGossip _).inherits given)

/-- Reaping repeats the incarnations of faulty members. -/
theorem reap_inherits {reaped : List String} (h : n.reap now = .done n' reaped) :
    n.Inherits given n' := by
  rw [reap] at h
  obtain ⟨effects, hupdate, -⟩ := Attempt.map_eq_done h
  refine (update_inherits ?_ hupdate).of_union
  rintro x ⟨c, hc, rfl⟩
  obtain ⟨row, hrow, rfl⟩ := List.mem_map.mp hc
  exact Or.inr (Or.inl (Or.inl ⟨row, (List.mem_filter.mp hrow).1, rfl⟩))

/-! ## Probing -/

/-- A member that is scanned for is as its row says, and may be probed. -/
theorem row?_of_scan {m : Membership} {order rest : List String} {row : Member}
    (h : Rotation.scan m order = some (row, rest)) :
    m.row? row.address = some row ∧ m.isPingable row = true := by
  induction order with
  | nil => cases h
  | cons address tail ih =>
      rw [Rotation.scan] at h
      -- the order may name an address that has no row any more, or one that nobody probes
      cases hrow : m.row? address with
      | none =>
          rw [hrow] at h
          exact ih h
      | some found =>
          rw [hrow] at h
          dsimp only at h
          split at h
          · next hpingable =>
            obtain ⟨rfl, -⟩ := Prod.mk.inj (Option.some.inj h)
            obtain ⟨-, rfl⟩ := Membership.mem_of_row?_eq_some hrow
            exact ⟨hrow, hpingable⟩
          · exact ih h

/-- The member that is picked for a probe has a pingable row. -/
theorem row?_of_pickTarget {chance : Chance} {target : Member}
    (h : (n.pickTarget chance).1 = some target) :
    n.membership.row? target.address = some target ∧ n.membership.isPingable target = true := by
  have hnext : (n.rotation.next n.membership chance).1 = some target := h
  rw [Rotation.next] at hnext
  split at hnext
  · next hscan => exact Option.some.inj hnext ▸ row?_of_scan hscan
  · dsimp only at hnext
    split at hnext
    · next hscan => exact Option.some.inj hnext ▸ row?_of_scan hscan
    · cases hnext

/-- A target is a member that the node has a row for. -/
theorem mem_of_pickTarget {chance chance' : Chance} {target : Member}
    (h : n.pickTarget chance = (some target, n', chance')) : target ∈ n.membership.rows :=
  (Membership.mem_of_row?_eq_some (row?_of_pickTarget (congrArg Prod.fst h)).1).1

/-- What is handed out was waiting. -/
theorem mentionsOf_issue (n : Node) : mentionsOf n.piggyback.issue.2 ⊆ n.mentions := by
  rintro x ⟨c, hc, rfl⟩
  obtain ⟨p, hp, rfl⟩ := Piggyback.mem_issued hc
  exact Or.inr (Or.inl ⟨p, hp, rfl⟩)

/-- Asking helpers hands claims out, and changes nothing else. -/
theorem composePingReq_inherits {target : Member} {chance chance' : Chance} {helpers : List Member}
    {request : PingReqRequest}
    (h : n.composePingReq target chance = (helpers, request, n', chance')) :
    n.Inherits given n' ∧ mentionsOf request.changes ⊆ n.mentions := by
  have hstate : { n with piggyback := n.piggyback.issue.1 } = n' := congrArg (fun r => r.2.2.1) h
  have hchanges : n.piggyback.issue.2 = request.changes := congrArg (fun r => r.2.1.changes) h
  exact ⟨hstate ▸ (Idles.issue n).inherits given, hchanges ▸ mentionsOf_issue n⟩

/-- A response without claims changes nothing, and any other one is taken in as a batch. -/
theorem absorb_inherits (hgiven : mentionsOf changes ⊆ given)
    (h : n.absorb now changes = .done n' effects) : n.Inherits given n' := by
  rw [absorb] at h
  split at h
  · obtain ⟨rfl, -⟩ := Attempt.done.inj h
    exact .refl given n
  · exact update_inherits hgiven h

/-- A verdict speaks of the target at the incarnation at which it was picked. -/
theorem judge_inherits {target : Member} {verdict : Verdict} (hgiven : target.mention ∈ given)
    (h : n.judge now target verdict = .done n' effects) : n.Inherits given n' := by
  cases verdict with
  | reachable => exact assert_inherits (Or.inl hgiven) h
  | unreachable => exact assert_inherits (Or.inl hgiven) h
  | noHelpers => exact assert_inherits (Or.inl hgiven) h
  | inconclusive =>
      obtain ⟨rfl, -⟩ := Attempt.done.inj h
      exact .refl given n

/-- An expiry tells of a timer. -/
theorem mention_mem_of_runOut {e : Expiry} (h : e ∈ (n.runOut now).2) : e.mention ∈ n.mentions :=
  Or.inr (Or.inr (Suspicion.mem_expiries h))

/-- An expiry makes its member faulty at the incarnation at which it was suspected. -/
theorem expire_inherits {e : Expiry} (hgiven : e.mention ∈ given)
    (h : n.expire now e = .done n' effects) : n.Inherits given n' := by
  have hclaimed := (Idles.claim n e).inherits given
  rw [expire] at h
  dsimp only at h
  split at h
  · exact hclaimed.trans (assert_inherits (Or.inl hgiven) h)
  · obtain ⟨rfl, -⟩ := Attempt.done.inj h
    exact .refl given n

/-! ## Answering -/

/-- The whole table says what its rows say. -/
theorem mentionsOf_snapshot (n : Node) (now : Clock) :
    mentionsOf (n.membership.snapshot now) ⊆ n.mentions := by
  rintro x ⟨c, hc, rfl⟩
  obtain ⟨row, hrow, rfl⟩ := List.mem_map.mp hc
  exact Or.inl (Or.inl ⟨row, hrow, rfl⟩)

/-- A message is answered with what the node holds. -/
theorem mentionsOf_answerWith (n : Node) (now : Moment) (checksum : Option UInt32) :
    mentionsOf (n.answerWith now checksum).2 ⊆ n.mentions := by
  rintro x ⟨c, hc, rfl⟩
  rcases Piggyback.mem_answer hc with ⟨p, hp, rfl⟩ | hsnapshot
  · exact Or.inr (Or.inl ⟨p, hp, rfl⟩)
  · exact n.mentionsOf_snapshot now.wall ⟨c, hsnapshot, rfl⟩

/-- A join that is not refused takes its sender in, and is answered with the whole table. -/
theorem answerJoin_eq_ok {r : JoinRequest} {response : JoinResponse}
    (h : n.answerJoin now r = .done n' (.ok response)) :
    r.source ≠ n.address ∧
      (∃ effects, n.assert now r.source .alive r.incarnation = .done n' effects) ∧
      response.membership = n'.membership.snapshot now.wall ∧
      response.checksum = n'.membership.checksum := by
  rw [answerJoin] at h
  split at h
  · cases (Attempt.done.inj h).2
  · split at h
    · cases (Attempt.done.inj h).2
    -- the newcomer is recorded as alive first, so it stands in the answer
    · next hother =>
      obtain ⟨n₁, effects, hassert, hlast⟩ := Attempt.andThen_eq_done h
      obtain ⟨rfl, hresponse⟩ := Attempt.done.inj hlast
      obtain rfl := Except.ok.inj hresponse
      exact ⟨hother, ⟨effects, hassert⟩, rfl, rfl⟩

/-- A join is answered with the whole table, in which the sender is taken as it said. -/
theorem answerJoin_inherits {r : JoinRequest} {response : JoinResponse}
    (hgiven : (r.source, r.incarnation) ∈ given)
    (h : n.answerJoin now r = .done n' (.ok response)) :
    n.Inherits given n' ∧ ∀ x ∈ mentionsOf response.membership, Sourced given n n' x := by
  obtain ⟨-, ⟨effects, hassert⟩, hmembership, -⟩ := answerJoin_eq_ok h
  have hin := assert_inherits (Or.inl hgiven) hassert
  rw [hmembership]
  exact ⟨hin, fun x hx => hin.mentions x (n'.mentionsOf_snapshot now.wall hx)⟩

/-- A ping is answered once its claims are taken in. -/
theorem answerPing_eq_done {r : PingRequest} {response : PingResponse}
    (h : n.answerPing now r = .done n' response) :
    ∃ n₁ effects, n.update now r.changes = .done n₁ effects ∧
      n' = (n₁.answerWith now r.checksum).1 ∧
      response = { changes := (n₁.answerWith now r.checksum).2, status := true } := by
  rw [answerPing] at h
  obtain ⟨n₁, effects, hupdate, hlast⟩ := Attempt.andThen_eq_done h
  obtain ⟨rfl, rfl⟩ := Attempt.done.inj hlast
  exact ⟨n₁, effects, hupdate, rfl, rfl⟩

/-- The claims of a ping are taken in, and the answer says what the node says then. -/
theorem answerPing_inherits {r : PingRequest} {response : PingResponse}
    (hgiven : mentionsOf r.changes ⊆ given) (h : n.answerPing now r = .done n' response) :
    n.Inherits given n' ∧ ∀ x ∈ mentionsOf response.changes, Sourced given n n' x := by
  obtain ⟨n₁, effects, hupdate, rfl, rfl⟩ := answerPing_eq_done h
  have hin := update_inherits hgiven hupdate
  have hanswer := (Idles.answerWith n₁ now r.checksum).inherits given
  refine ⟨hin.trans hanswer, fun x hx => ?_⟩
  exact (hin.mentions x (n₁.mentionsOf_answerWith now r.checksum hx)).later hanswer

end Node

end GossipRing
