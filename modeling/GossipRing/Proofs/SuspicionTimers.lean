import GossipRing.Proofs.RowHistory

/-!
# Suspicion timers are sound

Toward: a member becomes faulty by a timer only if it was suspected all the time. Timers are told of
claims that took effect, one after the other, and never look at the table. An expiry is claimed long
after its timer ran out, which may have been stopped or started anew since.

* **`Suspicion.Backed`** — every timer is that of another member, whose row is a suspect at the
  incarnation that the timer holds. Timers that hear of a claim stay backed by the table that has
  recorded it (`Backed.track`), and so it goes for a batch (`Backed.foldl_track`).
* **`Suspicion.Numbered`** — a generation was given to one start only, so it tells an expiry from any
  other that timers hold or have sent.
* **`Node.Watchful`** — both, of a node. Every run keeps it (`Process.Reached.watchful`).
* **`Process.TimersSound`** — what this means for timers, and for expiries that count or do not.
-/

namespace GossipRing

namespace Suspicion

variable {s : Suspicion} {t : Timer} {e : Expiry} {c : Change} {m m' : Membership}
  {sent more : List Expiry} {effects : List Change}

/-! ## Timers and the table -/

/-- Every timer watches another member, which is suspected at the incarnation that the timer holds.
    While timers are refused there are none. -/
structure Backed (s : Suspicion) (m : Membership) : Prop where
  remote : ∀ t ∈ s.timers, t.address ≠ s.here
  suspected : ∀ t ∈ s.timers, m.row? t.address = some ⟨t.address, .suspect, t.incarnation⟩
  disabled : s.disabled → s.timers = []

namespace Backed

/-- Whoever finds the same rows backs the same timers. -/
theorem congr (h : Backed s m) (hrow : ∀ address, m'.row? address = m.row? address) : Backed s m' where
  remote := h.remote
  suspected t ht := by
    rw [hrow]
    exact h.suspected t ht
  disabled := h.disabled

/-- Whoever has no timer may have any row. -/
theorem stop (h : Backed s m) (row : Member) : Backed (s.stop row.address) (m.put row) where
  remote t ht := h.remote t (mem_stop ht)
  suspected t ht := by
    obtain ⟨hold, hother⟩ := List.mem_filter.mp ht
    rw [Membership.row?_put, if_neg (of_decide_eq_true hother)]
    exact h.suspected t hold
  disabled hoff := by
    show s.timers.filter _ = []
    rw [h.disabled hoff]
    rfl

/-- The timer of a suspected member is backed by its row. -/
theorem start (h : Backed s m) (now : ℕ) {row : Member} (hstatus : row.status = .suspect) :
    Backed (s.start now row).1 (m.put row) := by
  rw [Suspicion.start]
  split
  · next hrefused =>
    -- no timer is that of this member: there is none at all, or the member is the node itself
    have hother : ∀ t ∈ s.timers, t.address ≠ row.address := by
      intro t ht habout
      rcases Bool.or_eq_true_iff.mp hrefused with hoff | hlocal
      · rw [h.disabled hoff] at ht
        exact List.not_mem_nil ht
      · exact h.remote t ht (habout.trans (of_decide_eq_true hlocal))
    refine ⟨h.remote, fun t ht => ?_, h.disabled⟩
    rw [Membership.row?_put, if_neg (hother t ht)]
    exact h.suspected t ht
  · next haccepted =>
    rw [Bool.or_eq_true, not_or, decide_eq_true_eq] at haccepted
    obtain ⟨hon, hremote⟩ := haccepted
    have hstopped := h.stop row
    constructor
    · intro t ht
      rcases List.mem_append.mp ht with hold | hnew
      · exact hstopped.remote t hold
      · obtain rfl := List.mem_singleton.mp hnew
        exact hremote
    · intro t ht
      rcases List.mem_append.mp ht with hold | hnew
      · exact hstopped.suspected t hold
      · obtain rfl := List.mem_singleton.mp hnew
        show (m.put row).row? row.address = some ⟨row.address, .suspect, row.incarnation⟩
        rw [Membership.row?_put, if_pos rfl, ← hstatus]
    · exact fun hoff => absurd hoff hon

/-- **Timers that hear of a claim are backed by the table that records it.** -/
theorem track (h : Backed s m) (now : ℕ) (c : Change) :
    Backed (Node.track now s c) (m.put c.toMember) := by
  rw [Node.track]
  split
  · next hstatus => exact h.start now hstatus
  · exact h.stop c.toMember

/-- **So it goes for a batch**, in whatever order its claims about one member come. -/
theorem foldl_track (h : Backed s m) (now : ℕ) (effects : List Change) :
    Backed (effects.foldl (Node.track now) s) (m.putAll effects) := by
  induction effects generalizing s m with
  | nil => exact h
  | cons c rest ih => exact ih (h.track now c)

end Backed

/-! ## Generations -/

/-- The expiry has been sent, or a timer may send it yet. -/
def Issued (sent : List Expiry) (s : Suspicion) (e : Expiry) : Prop :=
  e ∈ sent ∨ ∃ t ∈ s.timers, t.expiry = e

/-- A generation tells an expiry from any other, and those to come are greater. -/
structure Numbered (sent : List Expiry) (s : Suspicion) : Prop where
  bound : ∀ e, Issued sent s e → e.generation ≤ s.generation
  unique : ∀ e e', Issued sent s e → Issued sent s e' → e.generation = e'.generation → e = e'

/-- Whoever starts a timer gives it the next generation. -/
theorem issued_start {now : ℕ} {row : Member} (h : Issued sent (s.start now row).1 e) :
    Issued sent s e ∨ e = ⟨row.address, row.incarnation, s.generation + 1⟩ ∧
      (s.start now row).1.generation = s.generation + 1 := by
  rw [start] at h ⊢
  split at h
  · exact Or.inl h
  · next haccepted =>
    rw [if_neg haccepted]
    rcases h with hsent | ⟨t, ht, rfl⟩
    · exact Or.inl (Or.inl hsent)
    · rcases List.mem_append.mp ht with hold | hnew
      · exact Or.inl (Or.inr ⟨t, mem_stop hold, rfl⟩)
      · obtain rfl := List.mem_singleton.mp hnew
        exact Or.inr ⟨rfl, rfl⟩

/-- Starting a timer never takes a generation back. -/
theorem generation_le_start (s : Suspicion) (now : ℕ) (row : Member) :
    s.generation ≤ (s.start now row).1.generation := by
  rw [start]
  split
  · exact Nat.le_refl _
  · exact Nat.le_succ _

namespace Numbered

variable {sent' : List Expiry} {s' : Suspicion}

/-- No expiry is issued that was not before. -/
theorem of_issued (h : Numbered sent s) (hgeneration : s'.generation = s.generation)
    (hissued : ∀ e, Issued sent' s' e → Issued sent s e) : Numbered sent' s' where
  bound e he := hgeneration ▸ h.bound e (hissued e he)
  unique e e' he he' := h.unique e e' (hissued e he) (hissued e' he')

theorem stop (h : Numbered sent s) (address : String) : Numbered sent (s.stop address) := by
  refine h.of_issued rfl ?_
  rintro e (hsent | ⟨t, ht, rfl⟩)
  · exact Or.inl hsent
  · exact Or.inr ⟨t, mem_stop ht, rfl⟩

/-- Starting a timer keeps the numbering, as the new timer gets a number that none had before. -/
theorem start (h : Numbered sent s) (now : ℕ) (row : Member) :
    Numbered sent (s.start now row).1 := by
  constructor
  · intro e he
    rcases issued_start he with hold | ⟨rfl, hlast⟩
    · exact Nat.le_trans (h.bound e hold) (generation_le_start s now row)
    · exact Nat.le_of_eq hlast.symm
  · intro e e' he he' hsame
    rcases issued_start he with hold | ⟨rfl, -⟩
    · rcases issued_start he' with hold' | ⟨rfl, -⟩
      · exact h.unique e e' hold hold' hsame
      · have hle := h.bound e hold
        simp only at hsame
        omega
    · rcases issued_start he' with hold' | ⟨rfl, -⟩
      · have hle := h.bound e' hold'
        simp only at hsame
        omega
      · rfl

theorem track (h : Numbered sent s) (now : ℕ) (c : Change) :
    Numbered sent (Node.track now s c) := by
  rw [Node.track]
  split
  · exact h.start now c.toMember
  · exact h.stop c.address

theorem foldl_track (h : Numbered sent s) (now : ℕ) (effects : List Change) :
    Numbered sent (effects.foldl (Node.track now) s) := by
  induction effects generalizing s with
  | nil => exact h
  | cons c rest ih => exact ih (h.track now c)

/-- Timers send what they hold. -/
theorem send (h : Numbered sent s) (hmore : ∀ e ∈ more, ∃ t ∈ s.timers, t.expiry = e) :
    Numbered (sent ++ more) s := by
  refine h.of_issued rfl ?_
  rintro e (hsent | htimer)
  · rcases List.mem_append.mp hsent with hold | hnew
    · exact Or.inl hold
    · exact Or.inr (hmore e hnew)
  · exact Or.inr htimer

/-- **An expiry that counts is that of a live timer**: no other one has its generation. -/
theorem exists_timer (h : Numbered sent s) (he : e ∈ sent) (hcounts : (s.claim e).2 = true) :
    ∃ t ∈ s.timers, t.expiry = e := by
  rw [claim] at hcounts
  split at hcounts
  · next hany =>
    obtain ⟨t, ht, hmatch⟩ := List.any_eq_true.mp hany
    rw [Bool.and_eq_true, decide_eq_true_eq, decide_eq_true_eq] at hmatch
    exact ⟨t, ht, h.unique t.expiry e (Or.inr ⟨t, ht, rfl⟩) (Or.inl he) hmatch.2⟩
  · cases hcounts

end Numbered

end Suspicion

namespace Node

variable {now : Moment} {n n' : Node} {sent more : List Expiry} {effects : List Change}

/-- The timers of a node are backed by its table, and generations tell expiries apart. -/
structure Watchful (sent : List Expiry) (n : Node) : Prop where
  here : n.suspicion.here = n.address
  backed : n.suspicion.Backed n.membership
  numbered : n.suspicion.Numbered sent

/-- Spreading effects tracks them one by one. -/
theorem suspicion_spread (n : Node) (now : Moment) (effects : List Change) :
    (n.spread now effects).suspicion = effects.foldl (track now.elapsed) n.suspicion := by
  rw [spread]
  split
  · next hnone =>
    rw [List.isEmpty_iff.mp hnone]
    rfl
  · rfl

theorem here_foldl_track (elapsed : ℕ) (s : Suspicion) (effects : List Change) :
    (effects.foldl (track elapsed) s).here = s.here := by
  induction effects generalizing s with
  | nil => rfl
  | cons c rest ih =>
      rw [List.foldl_cons, ih, track]
      split
      · rw [Suspicion.start]
        split <;> rfl
      · rfl

namespace Watchful

/-- **Claims that take effect.** -/
theorem settle (h : Watchful sent n) (op : Membership.Op)
    (hsettle : n.settle now (op.apply now.wall n.membership) = .done n' effects) :
    Watchful sent n' := by
  obtain ⟨m, happly, rfl⟩ := settle_eq_done hsettle
  constructor
  · rw [suspicion_spread, here_foldl_track, address_spread]
    exact h.here
  · rw [suspicion_spread, membership_spread]
    exact (h.backed.foldl_track now.elapsed effects).congr (op.alike_putAll happly).row?
  · rw [suspicion_spread]
    exact h.numbered.foldl_track now.elapsed effects

/-- Steps that leave the table alone. -/
theorem aside (h : Watchful sent n) (haside : Aside n n') : Watchful sent n' where
  here := haside.here.trans (h.here.trans haside.address.symm)
  backed := by
    -- no timer is new, so each says what an old one has said
    have hold : ∀ t ∈ n'.suspicion.timers, ∃ u ∈ n.suspicion.timers,
        u.address = t.address ∧ u.incarnation = t.incarnation := by
      intro t ht
      obtain ⟨u, hu, hsame⟩ := haside.timers t ht
      exact ⟨u, hu, congrArg Expiry.address hsame, congrArg Expiry.incarnation hsame⟩
    rw [haside.membership]
    constructor
    · intro t ht
      obtain ⟨u, hu, haddress, -⟩ := hold t ht
      rw [← haddress, haside.here]
      exact h.backed.remote u hu
    · intro t ht
      obtain ⟨u, hu, haddress, hinc⟩ := hold t ht
      rw [← haddress, ← hinc]
      exact h.backed.suspected u hu
    · intro hoff
      rcases haside.disabled hoff with hbefore | hnone
      · refine List.eq_nil_iff_forall_not_mem.mpr fun t ht => ?_
        obtain ⟨u, hu, -⟩ := hold t ht
        rw [h.backed.disabled hbefore] at hu
        exact List.not_mem_nil hu
      · exact hnone
  numbered := by
    refine h.numbered.of_issued haside.generation ?_
    rintro e (hsent | ⟨t, ht, rfl⟩)
    · exact Or.inl hsent
    · exact Or.inr (haside.timers t ht)

theorem send (h : Watchful sent n) (hmore : ∀ e ∈ more, ∃ t ∈ n.suspicion.timers, t.expiry = e) :
    Watchful (sent ++ more) n where
  here := h.here
  backed := h.backed
  numbered := h.numbered.send hmore

/-- A node that was just created is watchful, as it has no timers. -/
theorem createWith {hash : HashFunction} {address : String} {settings : Settings} {chance : Chance}
    (h : Node.createWith hash address settings chance = .ok n) : Watchful [] n := by
  obtain ⟨haddress, -, hsuspicion⟩ := createWith_eq h
  have hnone : n.suspicion.timers = [] := by
    rw [hsuspicion]
    rfl
  have hissued : ∀ e, ¬n.suspicion.Issued [] e := by
    rintro e (hsent | ⟨t, ht, -⟩)
    · exact List.not_mem_nil hsent
    · rw [hnone] at ht
      exact List.not_mem_nil ht
  constructor
  · rw [hsuspicion, haddress]
    rfl
  · constructor
    · intro t ht
      rw [hnone] at ht
      exact absurd ht List.not_mem_nil
    · intro t ht
      rw [hnone] at ht
      exact absurd ht List.not_mem_nil
    · exact fun _ => hnone
  · constructor
    · exact fun e he => absurd he (hissued e)
    · exact fun e e' he => absurd he (hissued e)

end Watchful

/-! ## Claims of a node's own -/

/-- A claim of a node's own about another member that is not accepted leaves the node as it is. -/
theorem assert_of_not_accepts (hready : n.membership.isReady = true) (now : Moment)
    {address : String} {status : Status} {inc : UInt64} (hremote : address ≠ n.membership.here)
    (h : ¬n.membership.Accepts (n.membership.ownClaim now.wall address status inc)) :
    n.assert now address status inc = .done n [] := by
  have hignored : n.membership.Ignores (n.membership.ownClaim now.wall address status inc) :=
    Or.inr ⟨h, Membership.not_refutes_of_remote hremote⟩
  have hupdate : n.membership.assert now.wall address status inc = .done n.membership [] :=
    Membership.update_of_applied hready _ (.ignore hignored .nil)
  rw [assert, hupdate]
  rfl

/-- **A claim of a node's own that is accepted** is the row afterwards, and no other row is touched. The
    ring does what the row says. -/
theorem assert_of_accepts (hready : n.membership.isReady = true) (now : Moment) (row : Member)
    (hnamed : row.address ≠ "")
    (haccepts : n.membership.Accepts
      (n.membership.ownClaim now.wall row.address row.status row.incarnation)) :
    ∃ n', n.assert now row.address row.status row.incarnation =
        .done n' [n.membership.ownClaim now.wall row.address row.status row.incarnation] ∧
      n'.address = n.address ∧ n'.membership.here = n.membership.here ∧
      n'.membership.isReady = true ∧
      (∀ a, n'.membership.row? a = if a = row.address then some row else n.membership.row? a) ∧
      (row.address ∈ n'.ring.servers ↔ row.status.isPingable = true) := by
  have hclaim : ¬(n.membership.ownClaim now.wall row.address row.status row.incarnation).isMalformed :=
    fun hempty => hnamed (String.isEmpty_iff.mp hempty)
  obtain ⟨m, hdone, halike, hgate⟩ : ∃ m, n.membership.assert now.wall row.address row.status
      row.incarnation = .done m [n.membership.ownClaim now.wall row.address row.status
        row.incarnation] ∧ Membership.Alike m (n.membership.put row) ∧ m.gate = n.membership.gate :=
    ⟨_, Membership.update_of_applied hready _ (.accept hclaim haccepts .nil),
      Membership.alike_conclude _ _, (Membership.gate_conclude _ _).trans (Membership.gate_put _ _)⟩
  have hrows : ∀ a, m.row? a = if a = row.address then some row else n.membership.row? a := by
    intro a
    rw [halike.row?, Membership.row?_put]
  have hrow : m.row? row.address = some row := by rw [hrows, if_pos rfl]
  rw [assert, hdone]
  refine ⟨_, rfl, address_spread _ _ _, ?_, ?_, ?_, ?_⟩
  · rw [membership_spread, ← Membership.here_put n.membership row]
    exact halike.here
  · rw [membership_spread, Membership.isReady]
    show m.gate.isOpen = true
    rw [hgate]
    exact hready
  · rw [membership_spread]
    exact hrows
  · have hmem : row.address ∈ [n.membership.ownClaim now.wall row.address row.status
        row.incarnation].map Change.address := List.mem_singleton_self _
    rw [mem_servers_spread, if_pos hmem]
    · show (m.row? row.address).map (fun row => row.status.isPingable) = some true ↔ _
      rw [hrow, Option.map_some, Option.some_inj]
    · intro a ha
      rw [List.mem_singleton.mp ha]
      exact Option.isSome_of_eq_some hrow

/-! ## Expiries -/

/-- **A suspected member can be made faulty**, at the incarnation at which it is suspected. -/
theorem assert_faulty (now : Moment) {address : String} {inc : UInt64} (hready : n.membership.isReady)
    (hremote : address ≠ n.membership.here) (hnamed : address ≠ "")
    (hrow : n.membership.row? address = some ⟨address, .suspect, inc⟩) :
    ∃ n', n.assert now address .faulty inc =
        .done n' [n.membership.ownClaim now.wall address .faulty inc] ∧
      ∀ a, n'.membership.row? a =
        if a = address then some ⟨address, .faulty, inc⟩ else n.membership.row? a := by
  have haccepts : n.membership.Accepts (n.membership.ownClaim now.wall address .faulty inc) := by
    refine (Membership.accepts_iff_of_some hrow).mpr ⟨?_, fun hlocal => absurd hlocal hremote⟩
    refine Precedence.overrides_of_worse rfl ?_
    show Status.suspect.rank < Status.faulty.rank
    decide
  obtain ⟨n', hdone, -, -, -, hrows, -⟩ :=
    assert_of_accepts hready now ⟨address, .faulty, inc⟩ hnamed haccepts
  exact ⟨n', hdone, hrows⟩

end Node

namespace Process

variable {p : Process} {acts : List (Moment × Act)}

/-- Every process that has been reached is watchful over what it has sent. -/
theorem Reached.watchful (hp : p.Reached) : p.node.Watchful p.sent := by
  obtain ⟨hash, address, settings, chance, n, acts, hnode, hrun⟩ := hp
  refine run_induction (P := fun sent n => n.Watchful sent) ?_ ?_ ?_ (.createWith hnode) hrun
  · exact fun hn haside => hn.aside haside
  · exact fun op _ _ _ hn hsettle => hn.settle op hsettle
  · exact fun hn hmore => hn.send hmore

/-- Every timer watches another member, whose row is a suspect at the incarnation that the timer
    holds. An expiry that counts turns this row, and no other, from suspect to faulty. One that does
    not count changes nothing. -/
structure TimersSound (p : Process) : Prop where
  watching : ∀ t ∈ p.node.suspicion.timers, t.address ≠ p.node.address ∧
    p.node.membership.row? t.address = some ⟨t.address, .suspect, t.incarnation⟩
  counting : ∀ now, ∀ e ∈ p.sent, (p.node.suspicion.claim e).2 = true →
    p.node.membership.row? e.address = some ⟨e.address, .suspect, e.incarnation⟩ ∧
    ∃ n effects, p.node.expire now e = .done n effects ∧
      n.membership.row? e.address = some ⟨e.address, .faulty, e.incarnation⟩ ∧
      ∀ address, address ≠ e.address →
        n.membership.row? address = p.node.membership.row? address
  late : ∀ now e, (p.node.suspicion.claim e).2 = false → p.node.expire now e = .done p.node []

/-- A node that knows somebody else is ready. -/
theorem Orderly.isReady_of_remote (h : Orderly p) {row : Member}
    (hrow : row ∈ p.node.membership.rows) (hremote : row.address ≠ p.node.address) :
    p.node.membership.isReady = true := by
  by_contra hclosed
  rw [Bool.not_eq_true] at hclosed
  exact hremote ((h.secluded hclosed row hrow).trans h.here)

/-- In every process that has been reached the timers are sound. -/
theorem Reached.timersSound (hp : p.Reached) : TimersSound p := by
  have hwatchful := hp.watchful
  have horderly := hp.orderly
  -- a timer is about a peer whose row is suspect at the incarnation of the timer
  have hwatching : ∀ t ∈ p.node.suspicion.timers, t.address ≠ p.node.address ∧
      p.node.membership.row? t.address = some ⟨t.address, .suspect, t.incarnation⟩ := by
    intro t ht
    have hremote := hwatchful.backed.remote t ht
    rw [hwatchful.here] at hremote
    exact ⟨hremote, hwatchful.backed.suspected t ht⟩
  refine ⟨hwatching, ?_, ?_⟩
  · intro now e he hcounts
    obtain ⟨t, ht, rfl⟩ := hwatchful.numbered.exists_timer he hcounts
    obtain ⟨hremote, hrow⟩ := hwatching t ht
    obtain ⟨hmem, -⟩ := Membership.mem_of_row?_eq_some hrow
    have hready := horderly.isReady_of_remote hmem hremote
    have hnamed : t.address ≠ "" := hp.table.named _ hmem
    have hother : t.address ≠ p.node.membership.here := horderly.here.symm ▸ hremote
    obtain ⟨n, hassert, hafter⟩ := Node.assert_faulty
      (n := { p.node with suspicion := (p.node.suspicion.claim t.expiry).1 }) now hready hother hnamed
      hrow
    -- the row is still the one that the timer was started for, and faulty overrides suspect
    have hexpire : p.node.expire now t.expiry =
        .done n [p.node.membership.ownClaim now.wall t.address .faulty t.incarnation] := by
      rw [Node.expire]
      dsimp only
      rw [hcounts, if_pos rfl]
      exact hassert
    refine ⟨hrow, n, _, hexpire, ?_, ?_⟩
    · exact (hafter t.address).trans (if_pos rfl)
    · exact fun address hne => (hafter address).trans (if_neg hne)
  · intro now e hlate
    rw [Node.expire]
    dsimp only
    rw [hlate]
    rfl

/-- **Suspicion timers are sound in every run of a new node.**

    A run that is not completed stops at the largest incarnation, in one of its acts. Its timers
    were sound before that act. -/
theorem timers_sound {hash : HashFunction} {address : String} {settings : Settings}
    {chance : Chance} {node : Node}
    (hnode : Node.createWith hash address settings chance = .ok node) (acts : List (Moment × Act)) :
    (∀ p, (start node).run acts = .done p () → TimersSound p) ∧
    (∀ p, (start node).run acts = .exhausted p →
      p.node.membership.localIncarnation = Membership.lastIncarnation ∧
      ∃ first now act rest before, acts = first ++ (now, act) :: rest ∧
        (start node).run first = .done before () ∧ act.perform now before = .exhausted p ∧
        TimersSound before) := by
  constructor
  · intro p hrun
    exact Reached.timersSound ⟨hash, address, settings, chance, node, acts, hnode, hrun⟩
  · intro p hrun
    obtain ⟨hspent, first, now, act, rest, before, hacts, hfirst, hstop⟩ := run_eq_exhausted hrun
    exact ⟨hspent, first, now, act, rest, before, hacts, hfirst, hstop,
      Reached.timersSound ⟨hash, address, settings, chance, node, first, hnode, hfirst⟩⟩

/-- The timer of `b` runs out, but before its expiry is claimed `b` is suspected anew and the timer
    started again. When that one has run out, too, the first expiry comes late and the second one
    counts. -/
theorem timers_sound_through_restart :
    ∃ node p,
      Node.createWith hash32 "a" { Settings.default with replicaPoints := 2 } .none = .ok node ∧
      (start node).run
        [(⟨7, 0⟩, .enter 0), (⟨7, 0⟩, .announce 0),
          (⟨8, 1⟩, .complete 0 [⟨some 1, [⟨"b", .alive, 5, "b", 5, 7⟩]⟩]),
          (⟨9, 10⟩, .move (.absorb [⟨"b", .suspect, 5, "c", 1, 8⟩])), (⟨9, 9000⟩, .runOut),
          (⟨9, 9001⟩, .move (.absorb [⟨"b", .suspect, 6, "c", 1, 9⟩])), (⟨9, 20000⟩, .runOut)] =
        .done p () ∧
      p.sent = [⟨"b", 5, 1⟩, ⟨"b", 6, 2⟩] ∧
      p.node.membership.row? "b" = some ⟨"b", .suspect, 6⟩ ∧
      p.node.expire ⟨9, 20001⟩ ⟨"b", 5, 1⟩ = .done p.node [] ∧
      ∃ n effects, p.node.expire ⟨9, 20001⟩ ⟨"b", 6, 2⟩ = .done n effects ∧
        n.membership.row? "b" = some ⟨"b", .faulty, 6⟩ := by
  have hnode : Node.createWith hash32 "a" { Settings.default with replicaPoints := 2 } .none =
      .ok _ := rfl
  have hsound := (timers_sound hnode
    [(⟨7, 0⟩, .enter 0), (⟨7, 0⟩, .announce 0),
      (⟨8, 1⟩, .complete 0 [⟨some 1, [⟨"b", .alive, 5, "b", 5, 7⟩]⟩]),
      (⟨9, 10⟩, .move (.absorb [⟨"b", .suspect, 5, "c", 1, 8⟩])), (⟨9, 9000⟩, .runOut),
      (⟨9, 9001⟩, .move (.absorb [⟨"b", .suspect, 6, "c", 1, 9⟩])), (⟨9, 20000⟩, .runOut)]).1 _
    (Attempt.eq_done_of_result? (by decide +kernel))
  obtain ⟨hrow, n, effects, hexpire, hfaulty, -⟩ :=
    hsound.counting ⟨9, 20001⟩ ⟨"b", 6, 2⟩ (by decide +kernel) (by decide +kernel)
  refine ⟨_, _, hnode, Attempt.eq_done_of_result? ?_, ?_, hrow, ?_, n, effects, hexpire, hfaulty⟩
  · decide +kernel
  · decide +kernel
  · exact hsound.late ⟨9, 20001⟩ ⟨"b", 5, 1⟩ (by decide +kernel)

/-- **A stop leaves a timer behind its row.** The node `a` believes that it is alive at the largest
    incarnation, and watches `b`. Then one batch says that `b` is alive again and that `a` is suspect, and
    stops at the second claim: the row of `b` is changed by then, and its timer goes on. When that runs
    out its expiry counts and changes no row. -/
theorem stop_leaves_timer_behind :
    ∃ node p n,
      Node.createWith hash32 "a" { Settings.default with replicaPoints := 2 } .none = .ok node ∧
      p = (start node).persist
        [(⟨7, 0⟩, .enter 0), (⟨7, 0⟩, .announce 0),
          (⟨8, 1⟩, .complete 0 [⟨some 1, [⟨"b", .alive, 5, "b", 5, 7⟩]⟩]),
          (⟨8, 2⟩, .move (.absorb [⟨"a", .alive, 18446744073709551615, "b", 5, 8⟩,
            ⟨"b", .suspect, 5, "c", 1, 8⟩])),
          (⟨9, 3⟩, .move (.absorb [⟨"b", .alive, 6, "b", 6, 9⟩,
            ⟨"a", .suspect, 18446744073709551615, "b", 6, 9⟩])), (⟨9, 9000⟩, .runOut)] ∧
      p.node.suspicion.timers = [⟨"b", 5, 1, none⟩] ∧ p.sent = [⟨"b", 5, 1⟩] ∧
      p.node.membership.row? "b" = some ⟨"b", .alive, 6⟩ ∧
      (p.node.suspicion.claim ⟨"b", 5, 1⟩).2 = true ∧
      p.node.expire ⟨9, 9001⟩ ⟨"b", 5, 1⟩ = .done n [] ∧
      n.membership.rows = p.node.membership.rows := by
  refine ⟨_, _, _, rfl, rfl, ?_, ?_, ?_, ?_, Attempt.eq_done_of_result? ?_, ?_⟩
  all_goals decide +kernel

end Process

end GossipRing
