import GossipRing.Proofs.Lifetime

/-!
# What a table does not forget

Toward: late news always meets a row that is at least as new. A table that applies claims keeps its
rows and their incarnations by precedence. Adopting snapshots does not ask precedence, so what counts
is that it happens once, to a table that has the node's own row at most.

* **`Membership.Keeps`** — every row is still there, at no smaller incarnation. `Applied.keeps` is by
  precedence, and `keeps_adopt` holds of a table that is `Secluded`.
* **`Membership.Advances`** — what a stretch that respects the gate does to a table.
* **`Process.Orderly`** — one call to bootstrap goes ahead at a time, the gate is closed until it
  succeeds, and behind the closed gate the table is secluded. Every step keeps this, and what the
  table knows (`Orderly.step`), and so does an act that stops (`Orderly.halt`), hence all that may
  happen (`Orderly.persist`).
* **`rows_only_advance`** — the same read off the rows, from any point of a run to a later one.
-/

namespace GossipRing

namespace Membership

/-! ## Tables that keep what they know -/

/-- Whoever has a row in the first table has one in the second, at no smaller incarnation. -/
def Keeps (m m' : Membership) : Prop :=
  ∀ address row, m.row? address = some row →
    ∃ row', m'.row? address = some row' ∧ row.incarnation ≤ row'.incarnation

/-- Nobody but the node itself has a row. -/
def Secluded (m : Membership) : Prop := ∀ row ∈ m.rows, row.address = m.here

section

variable {now : Clock} {m m' m₁ : Membership} {op : Op} {claims effects : List Change}
  {snapshots : List Snapshot}

theorem Keeps.refl (m : Membership) : Keeps m m :=
  fun _ row hrow => ⟨row, hrow, UInt64.le_refl _⟩

theorem Keeps.trans (h : Keeps m m₁) (h' : Keeps m₁ m') : Keeps m m' := by
  intro address row hrow
  obtain ⟨row₁, hrow₁, hle⟩ := h address row hrow
  obtain ⟨row', hrow', hle'⟩ := h' address row₁ hrow₁
  exact ⟨row', hrow', UInt64.le_trans hle hle'⟩

theorem keeps_of_rows (h : m'.rows = m.rows) : Keeps m m' := by
  intro address row hrow
  rw [← row?_congr h] at hrow
  exact ⟨row, hrow, UInt64.le_refl _⟩

/-- A table of the same node that keeps what was known is at no smaller incarnation. -/
theorem Keeps.localIncarnation_le (h : Keeps m m') (hhere : m'.here = m.here) :
    m.localIncarnation ≤ m'.localIncarnation := by
  cases hrow : m.localRow? with
  | none =>
      rw [localIncarnation, hrow]
      exact UInt64.zero_le
  | some row =>
      obtain ⟨row', hrow', hle⟩ := h _ row hrow
      rw [← hhere] at hrow'
      rw [localIncarnation_of_localRow? hrow, localIncarnation_of_localRow? hrow']
      exact hle

/-- A row that is at least as new may take the place of another one. -/
theorem keeps_put {row : Member}
    (h : ∀ old, m.row? row.address = some old → old.incarnation ≤ row.incarnation) :
    Keeps m (m.put row) := by
  intro address old hold
  rw [row?_put]
  by_cases habout : address = row.address
  · rw [if_pos habout]
    subst habout
    exact ⟨row, rfl, h old hold⟩
  · rw [if_neg habout]
    exact ⟨old, hold, UInt64.le_refl _⟩

/-- **Precedence lets no row get older.** -/
theorem Applied.keeps (h : Applied now m claims m' effects) : Keeps m m' := by
  induction h with
  | nil => exact .refl _
  | ignore _ _ ih => exact ih
  | accept _ hc _ ih =>
      refine (keeps_put ?_).trans ih
      intro old hold
      exact Precedence.incarnation_le_of_overrides ((accepts_iff_of_some hold).mp hc).1
  | refute _ _ hfresh _ ih =>
      refine (keeps_put ?_).trans ih
      intro old hold
      have hlt := lt_of_freshIncarnation? hfresh
      rw [localIncarnation_of_localRow? hold] at hlt
      exact UInt64.le_of_lt hlt

/-- **A secluded table loses nothing to snapshots**: they leave the node's own row alone. -/
theorem Secluded.keeps_adopt (h : m.Secluded) (snapshots : List Snapshot) :
    Keeps m (m.adopt snapshots).1 := by
  intro address row hrow
  obtain ⟨hmem, rfl⟩ := mem_of_row?_eq_some hrow
  have hlocal : row.address = m.here := h row hmem
  have hhere : (m.adopt snapshots).1.here = m.here := here_adopt m snapshots
  have hown := localRow?_adopt m snapshots
  rw [localRow?, localRow?, hhere, ← hlocal, hrow] at hown
  exact ⟨row, hown, UInt64.le_refl _⟩

/-! ## Operations that respect the gate -/

/-- The second table is the first one later: the gate is as it was, and rows have not got older.
    Nobody gets past a closed gate. -/
structure Advances (m m' : Membership) : Prop where
  here : m'.here = m.here
  ready : m'.isReady = m.isReady
  keeps : Keeps m m'
  secluded : m.isReady = false → m.Secluded → m'.Secluded

theorem Advances.refl (m : Membership) : Advances m m := ⟨rfl, rfl, .refl m, fun _ => id⟩

/-- An operation that respects the gate does not open it. -/
theorem Op.RespectsGate.ready (hop : op.RespectsGate) (h : op.apply now m = .done m' effects) :
    m'.isReady = m.isReady := by
  have hupdate : ∀ {claims : List Change} {localAlive : Bool},
      m.update now claims localAlive = .done m' effects → m'.isReady = m.isReady := by
    intro claims localAlive hdone
    rcases gate_update hdone with hgate | ⟨hclosed, rfl⟩
    · rw [isReady, hgate, isReady]
    · rw [(Bool.or_eq_false_iff.mp hclosed).1]
      rfl
  cases op with
  | update claims localAlive => exact hupdate h
  | assert address status incarnation => exact hupdate h
  | adopt snapshots => exact absurd hop id
  | openGate => exact absurd hop id

/-- Behind the closed gate only claims of the node about itself are put to precedence. -/
theorem Op.RespectsGate.local_of_reaching (hop : op.RespectsGate) (hclosed : m.isReady = false)
    {c : Change} (hc : c ∈ op.reaching now m) : c.address = m.here := by
  cases op with
  | update claims localAlive =>
      obtain rfl : localAlive = false := hop
      rw [reaching, hclosed] at hc
      exact absurd hc List.not_mem_nil
  | assert address status incarnation =>
      rw [reaching, hclosed, Bool.false_or] at hc
      split at hc
      · next hown =>
        obtain rfl := List.mem_singleton.mp hc
        exact of_decide_eq_true (Bool.and_eq_true_iff.mp hown).2
      · exact absurd hc List.not_mem_nil
  | adopt snapshots => exact absurd hop id
  | openGate => exact absurd hop id

theorem Op.RespectsGate.not_adopt (hop : op.RespectsGate) : op ≠ .adopt snapshots := by
  rintro rfl
  exact hop

/-- **An operation that respects the gate advances the table.** -/
theorem Op.RespectsGate.advances (hop : op.RespectsGate) (h : op.apply now m = .done m' effects) :
    Advances m m' := by
  have hhere : m'.here = m.here := op.here_eq h
  rcases op.apply_cases h with ⟨snapshots, hadopt, -⟩ | ⟨m₁, happlied, halike⟩
  · exact absurd hadopt hop.not_adopt
  · refine ⟨hhere, hop.ready h, happlied.keeps.trans (keeps_of_rows halike.rows), ?_⟩
    intro hclosed hsecluded row hrow
    rw [hhere]
    rw [halike.rows, happlied.eq_putAll] at hrow
    rcases mem_rows_putAll hrow with hold | ⟨e, he, rfl⟩
    · exact hsecluded row hold
    · rcases (happlied.origin he).2 with ⟨hclaimed, -⟩ | hrefutation
      · exact hop.local_of_reaching hclosed hclaimed
      · exact hrefutation.1.trans happlied.here_eq

/-- Behind the closed gate no operation that respects it stops. Where one does, it has applied some of
    its claims. -/
theorem Op.RespectsGate.stopped (hop : op.RespectsGate) (h : op.apply now m = .exhausted m') :
    m.isReady = true ∧ ∃ before effects, Applied now m before m' effects := by
  cases op with
  | update claims localAlive =>
      obtain rfl : localAlive = false := hop
      obtain ⟨htaken, before, -, -, effects, -, happlied, -⟩ := update_eq_exhausted h
      rw [Bool.or_false] at htaken
      exact ⟨htaken, before, effects, happlied⟩
  | assert address status incarnation =>
      obtain ⟨htaken, before, c, after, effects, hclaims, happlied, hrefutes⟩ := update_eq_exhausted h
      refine ⟨?_, before, effects, happlied⟩
      rcases Bool.or_eq_true_iff.mp htaken with hready | hown
      · exact hready
      · -- a claim of the node to be alive calls it down nowhere
        have hc : c ∈ [m.ownClaim now address status incarnation] := by
          rw [ownClaim, hclaims]
          exact List.mem_append_right _ List.mem_cons_self
        obtain rfl := List.mem_singleton.mp hc
        have halive : status = .alive := of_decide_eq_true (Bool.and_eq_true_iff.mp hown).1
        have hdown : status.IsDown := hrefutes.2.1
        rw [halive] at hdown
        exact absurd hdown (by decide)
  | adopt snapshots => exact absurd hop id
  | openGate => exact absurd hop id

/-- Where the gate is open claims that are applied advance the table. -/
theorem Applied.advances (h : Applied now m claims m' effects) (hready : m.isReady = true) :
    Advances m m' where
  here := h.here_eq
  ready := congrArg Gate.isOpen h.gate_eq
  keeps := h.keeps
  secluded hclosed := absurd (hclosed.symm.trans hready) Bool.false_ne_true

/-- Opening the gate puts to precedence what was held back. -/
theorem keeps_openGate (h : m.openGate now = .done m' effects) : Keeps m m' := by
  have h : Op.openGate.apply now m = .done m' effects := h
  rcases Op.apply_cases h with ⟨snapshots, hadopt, -⟩ | ⟨m₁, happlied, halike⟩
  · cases hadopt
  · exact happlied.keeps.trans (keeps_of_rows halike.rows)

/-- Once the gate has been opened the table is ready. -/
theorem isReady_openGate (h : m.openGate now = .done m' effects) : m'.isReady = true := by
  rw [openGate] at h
  split at h
  · obtain ⟨rfl, -⟩ := Attempt.done.inj h
    rfl
  · rcases gate_update h with hgate | ⟨hclosed, -⟩
    · rw [isReady, hgate]
      rfl
    · cases hclosed

/-- Where that stops the gate is open, and some of what was held back has been applied. -/
theorem openGate_eq_exhausted (h : m.openGate now = .exhausted m') :
    m'.here = m.here ∧ m'.isReady = true ∧ Keeps m m' := by
  rw [openGate_eq_update] at h
  obtain ⟨-, before, -, -, effects, -, happlied, -⟩ := update_eq_exhausted h
  have hadvances := happlied.advances rfl
  exact ⟨hadvances.here, hadvances.ready, hadvances.keeps⟩

end

end Membership

namespace Node

variable {now : Moment} {n n' : Node} {effects : List Change} {snapshots : List Snapshot}

/-- A stretch that stops advances the table, too. -/
theorem Stops.advances (h : Stops now n n') :
    n'.address = n.address ∧ n'.bootstrapped = n.bootstrapped ∧
      n.membership.Advances n'.membership := by
  cases h with
  | fresh _ => exact ⟨rfl, rfl, .refl _⟩
  | settle op hop hsettle =>
      obtain ⟨m, happly, rfl⟩ := settle_eq_exhausted hsettle
      obtain ⟨hready, before, effects, happlied⟩ := hop.stopped happly
      exact ⟨rfl, rfl, happlied.advances hready⟩

/-- A node that heeds claims keeps its name, and its table advances. -/
theorem Heeds.advances (h : Heeds now n n') :
    n'.address = n.address ∧ n.membership.Advances n'.membership := by
  rcases h with rfl | ⟨op, effects, hop, hsettle⟩
  · exact ⟨rfl, .refl _⟩
  · refine ⟨address_settle hsettle, ?_⟩
    obtain ⟨m, happly, rfl⟩ := settle_eq_done hsettle
    rw [membership_spread]
    exact hop.advances happly

/-- A secluded node that completes its bootstrap keeps what it knows. -/
theorem completeBootstrap_keeps (hsecluded : n.membership.Secluded)
    (h : n.completeBootstrap now snapshots = .done n' effects) :
    n'.address = n.address ∧ n'.bootstrapped = n.bootstrapped ∧
      n'.membership.here = n.membership.here ∧ n'.membership.isReady = true ∧
      n.membership.Keeps n'.membership := by
  have hadopted : (n.adopt now snapshots).1.membership = (n.membership.adopt snapshots).1 :=
    membership_spread _ _ _
  obtain ⟨m, hopen, rfl⟩ := settle_eq_done h
  rw [hadopted] at hopen
  rw [address_spread, bootstrapped_spread, membership_spread]
  have hopened : Membership.Op.openGate.apply now.wall (n.membership.adopt snapshots).1 =
      .done m effects := hopen
  refine ⟨address_spread _ _ _, bootstrapped_spread _ _ _, ?_, Membership.isReady_openGate hopen, ?_⟩
  · show m.here = n.membership.here
    rw [Membership.Op.here_eq hopened, Membership.here_adopt]
  · exact (hsecluded.keeps_adopt snapshots).trans (Membership.keeps_openGate hopen)

/-- A bootstrap that stops while the gate opens keeps the rows as well. -/
theorem adopt_openGate_keeps (hsecluded : n.membership.Secluded)
    (h : (n.adopt now snapshots).1.openGate now = .exhausted n') :
    n'.address = n.address ∧ n'.bootstrapped = n.bootstrapped ∧
      n'.membership.here = n.membership.here ∧ n'.membership.isReady = true ∧
      n.membership.Keeps n'.membership := by
  have hadopted : (n.adopt now snapshots).1.membership = (n.membership.adopt snapshots).1 :=
    membership_spread _ _ _
  obtain ⟨m, hopen, rfl⟩ := settle_eq_exhausted h
  rw [hadopted] at hopen
  obtain ⟨hhere, hready, hkeeps⟩ := Membership.openGate_eq_exhausted hopen
  refine ⟨address_spread _ _ _, bootstrapped_spread _ _ _, ?_, hready, ?_⟩
  · show m.here = n.membership.here
    rw [hhere, Membership.here_adopt]
  · exact (hsecluded.keeps_adopt snapshots).trans hkeeps

end Node

/-! ## Calls to bootstrap -/

namespace Process

/-- At most one call to bootstrap has got past the check, and the gate is closed until it has
    succeeded. Behind the closed gate the node knows nobody but itself. -/
structure Orderly (p : Process) : Prop where
  here : p.node.membership.here = p.node.address
  alone : ∀ i j, p.calls i ≠ .outside → p.calls j ≠ .outside → i = j
  begun : ∀ i, p.calls i ≠ .outside → p.node.bootstrapped = true
  opened : p.node.membership.isReady = true → ∃ i, p.calls i = .joined
  secluded : p.node.membership.isReady = false → p.node.membership.Secluded

variable {now : Moment} {p q : Process} {n n₀ : Node} {act : Act} {acts : List (Moment × Act)}
  {call : ℕ}

/-- Where no other call has got past the check, none has once this one is at another stage. -/
theorem eq_of_withStage (hothers : ∀ k, p.calls k ≠ .outside → k = call) {stage : Stage} {i : ℕ}
    (hi : (p.withStage call stage).calls i ≠ .outside) : i = call := by
  rw [calls_withStage] at hi
  by_contra hne
  rw [if_neg hne] at hi
  exact hne (hothers i hi)

/-- A process that has just started is orderly, as no call has entered and no row is there. -/
theorem Orderly.start {hash : HashFunction} {address : String} {settings : Settings} {chance : Chance}
    (h : Node.createWith hash address settings chance = .ok n) : Orderly (start n) := by
  obtain ⟨haddress, htable, -⟩ := Node.createWith_eq h
  constructor
  · show n.membership.here = n.address
    rw [htable, haddress]
    rfl
  · exact fun i _ hi => absurd rfl hi
  · exact fun i hi => absurd rfl hi
  · intro hready
    have hready : n.membership.isReady = true := hready
    rw [htable] at hready
    exact absurd hready Bool.false_ne_true
  · intro _ row hrow
    have hrow : row ∈ n.membership.rows := hrow
    rw [htable] at hrow
    exact absurd hrow List.not_mem_nil

namespace Orderly

/-- While a call is on its way the gate is closed. -/
theorem closed (h : Orderly p) (hcall : p.calls call ≠ .outside) (hjoined : p.calls call ≠ .joined) :
    p.node.membership.isReady = false := by
  by_contra hready
  rw [Bool.not_eq_false] at hready
  obtain ⟨i, hi⟩ := h.opened hready
  have hother : p.calls i ≠ .outside := by
    rw [hi]
    decide
  rw [h.alone call i hcall hother] at hjoined
  exact hjoined hi

/-- A node that asks hosts to take it in knows nobody else yet. -/
theorem secluded_of_joining (h : Orderly p) (hjoining : p.calls call = .joining) :
    p.node.membership.Secluded := by
  have hentered : p.calls call ≠ .outside := hjoining ▸ Stage.noConfusion
  have hjoined : p.calls call ≠ .joined := hjoining ▸ Stage.noConfusion
  exact h.secluded (h.closed hentered hjoined)

/-- A node whose table advances. -/
theorem withNode (h : Orderly p) (haddress : n.address = p.node.address)
    (hbegun : n.bootstrapped = p.node.bootstrapped)
    (hadvances : p.node.membership.Advances n.membership) : Orderly (p.withNode n) where
  here := hadvances.here.trans (h.here.trans haddress.symm)
  alone := h.alone
  begun i hi := hbegun.trans (h.begun i hi)
  opened hready := h.opened (hadvances.ready.symm.trans hready)
  secluded hclosed := by
    have hbefore : p.node.membership.isReady = false := hadvances.ready.symm.trans hclosed
    exact hadvances.secluded hbefore (h.secluded hbefore)

/-- A call that has got past the check goes on to another stage. -/
theorem withStage (h : Orderly p) {stage : Stage} (hcall : p.calls call ≠ .outside)
    (hjoined : p.calls call ≠ .joined) : Orderly (p.withStage call stage) where
  here := h.here
  alone i j hi hj := by
    have hothers : ∀ k, p.calls k ≠ .outside → k = call := fun k hk => h.alone k call hk hcall
    rw [eq_of_withStage hothers hi, eq_of_withStage hothers hj]
  begun i _ := h.begun call hcall
  opened hready := absurd ((h.closed hcall hjoined).symm.trans hready) Bool.false_ne_true
  secluded := h.secluded

/-- A call gets past the check. -/
theorem enter (h : Orderly p) (hflag : p.node.bootstrapped = false) : Orderly (p.enter call) := by
  have hnobody : ∀ i, ¬p.calls i ≠ .outside := by
    intro i hi
    exact absurd ((h.begun i hi).symm.trans hflag) (by decide)
  constructor
  · exact h.here
  · intro i j hi hj
    have hothers : ∀ k, p.calls k ≠ .outside → k = call := fun k hk => absurd hk (hnobody k)
    rw [eq_of_withStage hothers hi, eq_of_withStage hothers hj]
  · exact fun i _ => rfl
  · intro hready
    obtain ⟨i, hi⟩ := h.opened hready
    refine absurd ?_ (hnobody i)
    rw [hi]
    decide
  · exact h.secluded

/-- A call fails: the check is passed by the next one. -/
theorem fail (h : Orderly p) (hcall : p.calls call = .joining) :
    Orderly ((p.withNode p.node.failBootstrap).withStage call .outside) := by
  have hpast : p.calls call ≠ .outside := by
    rw [hcall]
    decide
  have hclosed := h.closed hpast (by rw [hcall]; decide)
  have hnobody : ∀ i,
      ¬((p.withNode p.node.failBootstrap).withStage call .outside).calls i ≠ .outside := by
    intro i hi
    obtain rfl := eq_of_withStage (fun k hk => h.alone k call hk hpast) hi
    rw [calls_withStage, if_pos rfl] at hi
    exact hi rfl
  constructor
  · exact h.here
  · exact fun i j hi => absurd hi (hnobody i)
  · exact fun i hi => absurd hi (hnobody i)
  · intro hready
    exact absurd (hclosed.symm.trans hready) Bool.false_ne_true
  · exact h.secluded

/-- A call succeeds. -/
theorem complete (h : Orderly p) (hcall : p.calls call = .joining)
    (haddress : n.address = p.node.address) (hbegun : n.bootstrapped = p.node.bootstrapped)
    (hhere : n.membership.here = p.node.membership.here) (hready : n.membership.isReady = true) :
    Orderly ((p.withNode n).withStage call .joined) := by
  have hpast : p.calls call ≠ .outside := by
    rw [hcall]
    decide
  constructor
  · exact hhere.trans (h.here.trans haddress.symm)
  · intro i j hi hj
    have hothers : ∀ k, p.calls k ≠ .outside → k = call := fun k hk => h.alone k call hk hpast
    rw [eq_of_withStage hothers hi, eq_of_withStage hothers hj]
  · exact fun i _ => hbegun.trans (h.begun call hpast)
  · refine fun _ => ⟨call, ?_⟩
    rw [calls_withStage, if_pos rfl]
  · intro hclosed
    exact absurd (hready.symm.trans hclosed) (by decide)

/-- A call that has claimed that the node is alive asks hosts to take it in. -/
theorem announce (h : Orderly (p.withNode n)) (hentered : p.calls call = .entered) :
    Orderly ((p.withNode n).withStage call .joining) := by
  refine h.withStage ?_ ?_
  all_goals
    show p.calls call ≠ _
    rw [hentered]
    decide

/-! ## Every act keeps what is known -/

/-- A stretch that heeds the gate. -/
theorem heed (h : Orderly p) (hheeds : Node.Heeds now n₀ n) (haddress : n₀.address = p.node.address)
    (hbegun : n₀.bootstrapped = p.node.bootstrapped) (htable : n₀.membership = p.node.membership) :
    Orderly (p.withNode n) ∧ p.node.membership.Keeps n.membership := by
  obtain ⟨hsame, hadvances⟩ := hheeds.advances
  rw [htable] at hadvances
  exact ⟨h.withNode (hsame.trans haddress) (hheeds.bootstrapped.trans hbegun) hadvances,
    hadvances.keeps⟩

/-- **Every step is orderly, and keeps what the table knows.** -/
theorem step (hp : Orderly p) (h : Step now p q) :
    Orderly q ∧ p.node.membership.Keeps q.node.membership := by
  cases h with
  | idle => exact ⟨hp, .refl _⟩
  | move hperform =>
      obtain ⟨n₁, hheeds, haside, hbegun⟩ := Node.perform_cases hperform
      obtain ⟨haddress, hadvances⟩ := hheeds.advances
      rw [← haside.membership] at hadvances
      exact ⟨hp.withNode (haside.address.trans haddress) (hbegun.trans hheeds.bootstrapped) hadvances,
        hadvances.keeps⟩
  -- the stages of a call move no row
  | enter hflag => exact ⟨hp.enter hflag, .refl _⟩
  | @announce call inc n effects hentered hassert =>
      obtain ⟨hnode, hkeeps⟩ := hp.heed (Node.heeds_of_assert hassert) rfl rfl rfl
      exact ⟨hnode.announce hentered, hkeeps⟩
  | fail hjoining => exact ⟨hp.fail hjoining, .refl _⟩
  -- while a call joins the gate is closed, so the table has no row of anybody else
  | @complete call snapshots n effects hjoining hcomplete =>
      obtain ⟨haddress, hbegun, hhere, hready, hkeeps⟩ :=
        Node.completeBootstrap_keeps (hp.secluded_of_joining hjoining) hcomplete
      exact ⟨hp.complete hjoining haddress hbegun hhere hready, hkeeps⟩
  | runOut =>
      have hadvances : p.node.membership.Advances (p.node.runOut now).1.membership := .refl _
      have hnode := hp.withNode (n := (p.node.runOut now).1) rfl rfl hadvances
      exact ⟨⟨hnode.here, hnode.alone, hnode.begun, hnode.opened, hnode.secluded⟩, .refl _⟩
  | expire _ _ hassert => exact hp.heed (Node.heeds_of_assert hassert) rfl rfl rfl

/-- **So is an act that stops.** -/
theorem halt (hp : Orderly p) (h : Halts now p q) :
    Orderly q ∧ p.node.membership.Keeps q.node.membership := by
  cases h with
  | move hstops =>
      obtain ⟨haddress, hbegun, hadvances⟩ := hstops.advances
      exact ⟨hp.withNode haddress hbegun hadvances, hadvances.keeps⟩
  | announce hentered hstops =>
      obtain ⟨haddress, hbegun, hadvances⟩ := hstops.advances
      exact ⟨(hp.withNode haddress hbegun hadvances).announce hentered, hadvances.keeps⟩
  | complete hjoining hopen =>
      obtain ⟨haddress, hbegun, hhere, hready, hkeeps⟩ :=
        Node.adopt_openGate_keeps (hp.secluded_of_joining hjoining) hopen
      exact ⟨hp.complete hjoining haddress hbegun hhere hready, hkeeps⟩
  | expire hstops =>
      obtain ⟨haddress, hbegun, hadvances⟩ := hstops.advances
      exact ⟨hp.withNode haddress hbegun hadvances, hadvances.keeps⟩

/-- An act keeps a process orderly and its rows no older, where it completes and where it stops. -/
theorem perform (hp : Orderly p) (now : Moment) (act : Act) :
    Orderly (act.perform now p).state ∧
      p.node.membership.Keeps (act.perform now p).state.node.membership := by
  cases hact : act.perform now p with
  | done q out => exact hp.step (step_of_perform hact)
  | exhausted q => exact hp.halt (halts_of_perform hact)

/-- **So is whatever happens to the node**, one act after the other. -/
theorem persist (hp : Orderly p) (acts : List (Moment × Act)) :
    Orderly (p.persist acts) ∧ p.node.membership.Keeps (p.persist acts).node.membership := by
  induction acts generalizing p with
  | nil => exact ⟨hp, .refl _⟩
  | cons entry rest ih =>
      obtain ⟨horderly, hkeeps⟩ := hp.perform entry.1 entry.2
      obtain ⟨horderly', hkeeps'⟩ := ih horderly
      exact ⟨horderly', hkeeps.trans hkeeps'⟩

/-- The node knows itself under one address all the time. -/
theorem here_perform (hp : Orderly p) (now : Moment) (act : Act) :
    (act.perform now p).state.node.membership.here = p.node.membership.here := by
  cases hact : act.perform now p with
  | done q out =>
      have hrun : p.run [(now, act)] = .done q () := by
        rw [Process.run, hact]
        rfl
      exact (here_hash_run hrun).1
  | exhausted q =>
      cases halts_of_perform hact with
      | move hstops => exact hstops.advances.2.2.here
      | announce _ hstops => exact hstops.advances.2.2.here
      | complete hjoining hopen =>
          obtain ⟨-, -, hhere, -⟩ := Node.adopt_openGate_keeps (hp.secluded_of_joining hjoining) hopen
          exact hhere
      | expire hstops => exact hstops.advances.2.2.here

/-- The table is named for the same address for ever. -/
theorem here_persist (hp : Orderly p) (acts : List (Moment × Act)) :
    (p.persist acts).node.membership.here = p.node.membership.here := by
  induction acts generalizing p with
  | nil => rfl
  | cons entry rest ih =>
      exact (ih (hp.perform entry.1 entry.2).1).trans (hp.here_perform entry.1 entry.2)

/-- A completed run keeps a process orderly and its rows no older. -/
theorem run (hp : Orderly p) (hrun : p.run acts = .done q ()) :
    Orderly q ∧ p.node.membership.Keeps q.node.membership :=
  persist_of_run hrun ▸ hp.persist acts

end Orderly

/-- Every process that has been reached is orderly. -/
theorem Reached.orderly (hp : p.Reached) : Orderly p := by
  obtain ⟨hash, address, settings, chance, n, acts, hnode, hrun⟩ := hp
  exact ((Orderly.start hnode).run hrun).1

/-- **A node never forgets, whatever happens to it.**

    Take a new node, and any run of it that is completed. Whatever the run goes on with, every row
    is still there afterwards, at no smaller incarnation, and it is the only one of its address. The
    node's own incarnation is no smaller, either. -/
theorem rows_only_advance (hp : p.Reached) (hrun : p.run acts = .done q ()) :
    q.node.membership.Distinct ∧
    (∀ row ∈ p.node.membership.rows, ∃ row' ∈ q.node.membership.rows,
      row'.address = row.address ∧ row.incarnation ≤ row'.incarnation) ∧
    p.node.membership.localIncarnation ≤ q.node.membership.localIncarnation := by
  obtain ⟨-, hkeeps⟩ := hp.orderly.run hrun
  have hdistinct : p.node.membership.Distinct := hp.table.distinct
  refine ⟨(hp.run hrun).table.distinct, ?_, ?_⟩
  · intro row hrow
    obtain ⟨row', hrow', hle⟩ :=
      hkeeps row.address row ((Membership.row?_eq_some_iff hdistinct).mpr ⟨hrow, rfl⟩)
    obtain ⟨hmem, haddress⟩ := Membership.mem_of_row?_eq_some hrow'
    exact ⟨row', hmem, haddress, hle⟩
  · cases hown : p.node.membership.localRow? with
    | none =>
        rw [Membership.localIncarnation, hown]
        exact UInt64.zero_le
    | some row =>
        obtain ⟨row', hrow', hle⟩ := hkeeps _ row hown
        rw [← (here_hash_run hrun).1] at hrow'
        rw [Membership.localIncarnation_of_localRow? hown,
          Membership.localIncarnation_of_localRow? hrow']
        exact hle

/-- The node `a` joins through a host that knows `b` as a suspect. Then it hears that `b` failed,
    that `b` was alive before, and that it failed itself. -/
theorem rows_only_advance_through_failure :
    ∃ node p q,
      Node.createWith hash32 "a" { Settings.default with replicaPoints := 2 } .none = .ok node ∧
      (start node).run
        [(⟨7, 0⟩, .enter 0), (⟨7, 0⟩, .announce 0),
          (⟨8, 1⟩, .complete 0 [⟨some 1, [⟨"b", .suspect, 5, "b", 5, 7⟩]⟩])] = .done p () ∧
      p.run
        [(⟨9, 2⟩, .move (.absorb [⟨"b", .faulty, 5, "c", 1, 8⟩, ⟨"b", .alive, 3, "c", 1, 8⟩,
          ⟨"a", .faulty, 7, "c", 1, 8⟩]))] = .done q () ∧
      p.node.membership.rows = [⟨"b", .suspect, 5⟩, ⟨"a", .alive, 7⟩] ∧
      q.node.membership.rows = [⟨"b", .faulty, 5⟩, ⟨"a", .alive, 9⟩] ∧
      p.node.membership.localIncarnation ≤ q.node.membership.localIncarnation := by
  have hnode : Node.createWith hash32 "a" { Settings.default with replicaPoints := 2 } .none =
      .ok _ := rfl
  refine ⟨_, _, _, hnode, Attempt.eq_done_of_result? ?_, Attempt.eq_done_of_result? ?_, ?_, ?_, ?_⟩
  · decide +kernel
  · decide +kernel
  · decide +kernel
  · decide +kernel
  · exact (rows_only_advance
      ⟨_, _, _, _, _, _, hnode, Attempt.eq_done_of_result? (by decide +kernel)⟩
      (Attempt.eq_done_of_result? (by decide +kernel))).2.2

end Process

end GossipRing
