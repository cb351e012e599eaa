import GossipRing.Proofs.Checksums
import Mathlib.Logic.Function.Basic

/-!
# What a table's log tells

Toward: whoever listens to a table from the start knows it. A claim may be refuted, held back, left
out or overridden before it is logged, and one batch may be about a member several times, so it is
the entries that have to account for the rows, and not what was taken in.

* **`View`**, **`View.hear`** — what a listener holds of each address, overwritten by every claim
  that an event tells of. `retold` is what is held after hearing all.
* **`Logs`** — the log went on with a renewal of the checksum and one entry about claims.
* **`Op.logs`** — what every operation adds to the log, or else that it changed nothing but the gate.
* **`Logged`** — the log tells the rows and the checksum, and each renewal names the checksum that
  the renewal before it computed. Operations keep it (`Logged.apply`), so runs do (`logged_run`).
-/

namespace GossipRing

namespace MembershipEvent

/-- The claims that an event tells of, in order. -/
def changes : MembershipEvent → List Change
  | updated changes => changes
  | adopted changes => changes
  | checksumComputed _ _ => []

/-- The checksum that an event tells of. -/
def checksum? : MembershipEvent → Option UInt32
  | updated _ => none
  | adopted _ => none
  | checksumComputed checksum _ => some checksum

end MembershipEvent

/-- The status and the incarnation that a listener holds of each address. -/
abbrev View : Type := String → Option (Status × UInt64)

namespace View

/-- Nobody has been heard of. -/
def blank : View := fun _ => none

/-- Hold of an address what a claim says. -/
def overwrite (view : View) (c : Change) : View :=
  Function.update view c.address (some (c.status, c.incarnation))

/-- Take over every claim that the events tell of, in order. -/
def hear (view : View) (events : List MembershipEvent) : View :=
  (events.flatMap MembershipEvent.changes).foldl overwrite view

theorem hear_append (view : View) (first second : List MembershipEvent) :
    view.hear (first ++ second) = (view.hear first).hear second := by
  rw [hear, List.flatMap_append, List.foldl_append]
  rfl

/-- The checksum that goes with an entry tells nothing of the rows. -/
theorem hear_renewal (view : View) (checksum : UInt32) (old : Option UInt32)
    (entry : MembershipEvent) :
    view.hear [.checksumComputed checksum old, entry] = entry.changes.foldl overwrite view := by
  rw [hear, List.flatMap_cons, List.flatMap_cons, List.flatMap_nil, List.append_nil]
  rfl

end View

namespace Membership

/-- What a listener holds who heard these events and nothing before them. -/
def retold (events : List MembershipEvent) : View := View.blank.hear events

/-- The last checksum that the events tell of. -/
def lastChecksum (events : List MembershipEvent) : Option UInt32 :=
  (events.filterMap MembershipEvent.checksum?).getLast?

/-- Every renewal names the checksum that the one before it computed, and the first one none. -/
def Chained (events : List MembershipEvent) : Prop :=
  ∀ before checksum old after, events = before ++ .checksumComputed checksum old :: after →
    old = lastChecksum before

section

variable {now : Clock} {m m' m₁ : Membership} {op : Op} {claims effects : List Change}
  {events : List MembershipEvent} {entry : MembershipEvent}

/-! ## The rows as a listener holds them -/

/-- The status and the incarnation in the row of each address. -/
def view (m : Membership) : View := fun address =>
  (m.row? address).map fun row => (row.status, row.incarnation)

/-- Writing a row overwrites the view at its address. -/
theorem view_put (m : Membership) (c : Change) : (m.put c.toMember).view = m.view.overwrite c := by
  funext address
  show Option.map _ ((m.put c.toMember).row? address) = Function.update m.view c.address _ address
  rw [row?_put, Function.update_apply]
  -- the row of `c` has the address of `c`
  show Option.map _ (if address = c.address then _ else _) = _
  split
  · rfl
  · rfl

/-- Claims recorded in the rows are claims taken over by a listener. -/
theorem view_putAll (m : Membership) (claims : List Change) :
    (m.putAll claims).view = claims.foldl View.overwrite m.view := by
  induction claims generalizing m with
  | nil => rfl
  | cons c rest ih => rw [putAll_cons, ih, view_put, List.foldl_cons]

theorem Alike.view (h : Alike m m') : m.view = m'.view := by
  funext address
  show Option.map _ (m.row? address) = Option.map _ (m'.row? address)
  rw [h.row?]

/-- Where rows are distinct, they are what is held. -/
theorem view_eq_some_iff (hm : m.Distinct) {address : String} {status : Status} {inc : UInt64} :
    m.view address = some (status, inc) ↔ ⟨address, status, inc⟩ ∈ m.rows := by
  constructor
  · intro h
    obtain ⟨row, hrow, hheld⟩ := Option.map_eq_some_iff.mp h
    obtain ⟨rfl, rfl⟩ := Prod.mk.inj hheld
    obtain ⟨hmem, rfl⟩ := mem_of_row?_eq_some hrow
    exact hmem
  · intro hmem
    have hrow : m.row? address = some ⟨address, status, inc⟩ :=
      (row?_eq_some_iff hm).mpr ⟨hmem, rfl⟩
    exact Option.map_eq_some_iff.mpr ⟨_, hrow, rfl⟩

/-! ## What an operation adds to the log -/

/-- The checksum was renewed and the log went on with the renewal and this entry. -/
def Logs (m m' : Membership) (entry : MembershipEvent) : Prop :=
  ∃ checksum, m'.checksum = some checksum ∧
    m'.events = m.events ++ [.checksumComputed checksum m.checksum, entry]

/-- Recording claims adds nothing to the log, and does not renew the checksum. -/
theorem events_put (m : Membership) (row : Member) :
    (m.put row).events = m.events ∧ (m.put row).checksum = m.checksum := by
  rw [put]
  split
  · exact ⟨rfl, rfl⟩
  · exact ⟨rfl, rfl⟩

/-- Writing rows alone logs nothing. -/
theorem events_putAll (m : Membership) (claims : List Change) :
    (m.putAll claims).events = m.events ∧ (m.putAll claims).checksum = m.checksum := by
  induction claims generalizing m with
  | nil => exact ⟨rfl, rfl⟩
  | cons c rest ih =>
      obtain ⟨hevents, hchecksum⟩ := ih (m.put c.toMember)
      rw [putAll_cons, hevents, hchecksum]
      exact events_put m c.toMember

/-- The table after a renewal of its checksum and one entry. -/
def withEntry (m : Membership) (entry : MembershipEvent) : Membership :=
  { m.renewChecksum with events := m.renewChecksum.events ++ [entry] }

/-- Concluding with an entry logs the new checksum and then the entry. -/
theorem logs_withEntry (m : Membership) (claims : List Change) (entry : MembershipEvent) :
    m.Logs ((m.putAll claims).withEntry entry) entry := by
  obtain ⟨hevents, hchecksum⟩ := events_putAll m claims
  refine ⟨(m.putAll claims).computeChecksum, rfl, ?_⟩
  show (m.putAll claims).events ++ [.checksumComputed _ (m.putAll claims).checksum] ++ [entry] = _
  rw [hevents, hchecksum, List.append_assoc]
  rfl

/-- **A batch is logged as one entry if one of its claims takes effect**, and else changes nothing
    but what is held back. -/
theorem logs_update {localAlive : Bool} (h : m.update now claims localAlive = .done m' effects) :
    effects ≠ [] ∧ m.Logs m' (.updated effects) ∨
      effects = [] ∧ m' = { m with gate := m'.gate } := by
  rw [update] at h
  split at h
  · obtain ⟨m₁, happlied, rfl⟩ := applyBatch_eq_done h
    obtain rfl := happlied.eq_putAll
    cases effects with
    | nil => exact Or.inr ⟨rfl, rfl⟩
    | cons e more => exact Or.inl ⟨List.cons_ne_nil e more, logs_withEntry m (e :: more) _⟩
  · obtain ⟨rfl, rfl⟩ := Attempt.done.inj h
    exact Or.inr ⟨rfl, rfl⟩

/-- What is held back matters to neither the log nor the checksum. -/
theorem events_releaseStash (m : Membership) (consumed : Bool) :
    (m.releaseStash consumed).events = m.events ∧
      (m.releaseStash consumed).checksum = m.checksum := by
  obtain ⟨gate, hgate⟩ := releaseStash_eq m consumed
  rw [hgate]
  exact ⟨rfl, rfl⟩

/-- Adopted snapshots are logged as one entry, whatever they tell. -/
theorem logs_adopt (m : Membership) (snapshots : List Snapshot) :
    m.Logs (m.adopt snapshots).1 (.adopted (m.adopt snapshots).2) := by
  have hadopt : (m.adopt snapshots).1 =
      Membership.withEntry (putAll _ (m.adopt snapshots).2) (.adopted (m.adopt snapshots).2) :=
    congrArg (fun m₁ : Membership => m₁.withEntry (.adopted (m.adopt snapshots).2)) (adoptAll_eq _ _)
  obtain ⟨hevents, hchecksum⟩ := events_releaseStash m
    (Snapshot.reconcile m.here snapshots m.gate.stash).consumedStash
  obtain ⟨checksum, hrenewed, hlog⟩ := logs_withEntry _ (m.adopt snapshots).2
    (.adopted (m.adopt snapshots).2)
  rw [hevents, hchecksum] at hlog
  rw [hadopt]
  exact ⟨checksum, hrenewed, hlog⟩

/-- **What every operation adds to the log.** Adopting snapshots adds an entry of its own; any other
    operation adds what its effects are, or nothing where there are none. -/
theorem Op.logs (h : op.apply now m = .done m' effects) :
    (∃ snapshots, op = .adopt snapshots) ∧ m.Logs m' (.adopted effects) ∨
    (∀ snapshots, op ≠ .adopt snapshots) ∧ effects ≠ [] ∧ m.Logs m' (.updated effects) ∨
    (∀ snapshots, op ≠ .adopt snapshots) ∧ effects = [] ∧ m' = { m with gate := m'.gate } := by
  have hentry : (∀ snapshots, op ≠ .adopt snapshots) →
      effects ≠ [] ∧ m.Logs m' (.updated effects) ∨ effects = [] ∧ m' = { m with gate := m'.gate } →
      (∀ snapshots, op ≠ .adopt snapshots) ∧ effects ≠ [] ∧ m.Logs m' (.updated effects) ∨
      (∀ snapshots, op ≠ .adopt snapshots) ∧ effects = [] ∧ m' = { m with gate := m'.gate } :=
    fun hother hlogs => hlogs.imp (And.intro hother) (And.intro hother)
  cases op with
  | update claims localAlive => exact Or.inr (hentry (fun _ hadopt => nomatch hadopt) (logs_update h))
  | assert address status incarnation =>
      have h : m.update now [m.ownClaim now address status incarnation]
          (status = .alive && address = m.here) = .done m' effects := h
      exact Or.inr (hentry (fun _ hadopt => nomatch hadopt) (logs_update h))
  | adopt snapshots =>
      obtain ⟨rfl, rfl⟩ := Attempt.done.inj h
      exact Or.inl ⟨⟨snapshots, rfl⟩, logs_adopt m snapshots⟩
  | openGate =>
      have h : m.openGate now = .done m' effects := h
      rw [openGate_eq_update] at h
      -- the opened gate matters to neither the log nor the rows
      have hlogs := logs_update h
      exact Or.inr (hentry (fun _ hadopt => nomatch hadopt) hlogs)

/-! ## What the log tells -/

/-- The last checksum in a log is that of its last computation. -/
theorem lastChecksum_append (before : List MembershipEvent) (checksum : UInt32)
    (old : Option UInt32) (hentry : entry.checksum? = none) :
    lastChecksum (before ++ [.checksumComputed checksum old, entry]) = some checksum := by
  have hlast : [MembershipEvent.checksumComputed checksum old, entry].filterMap
      MembershipEvent.checksum? = [checksum] := by
    rw [List.filterMap_cons, List.filterMap_cons, hentry]
    rfl
  rw [lastChecksum, List.filterMap_append, hlast, List.getLast?_concat]

theorem chained_nil : Chained [] := by
  intro before checksum old after hsplit
  exact absurd hsplit.symm (List.append_ne_nil_of_right_ne_nil _ (List.cons_ne_nil _ _))

/-- The chain goes on with a renewal that names the last checksum. -/
theorem Chained.append (h : Chained events) (checksum : UInt32) (hentry : entry.checksum? = none) :
    Chained (events ++ [.checksumComputed checksum (lastChecksum events), entry]) := by
  intro before checksum' old after hsplit
  rcases List.append_eq_append_iff.mp hsplit with ⟨more, hbefore, hmore⟩ | ⟨more, hold, hmore⟩
  · -- it is one of the two that were added, and the entry is not a renewal
    rcases List.cons_eq_append_iff.mp hmore with ⟨rfl, hfirst⟩ | ⟨more', rfl, hsecond⟩
    · obtain ⟨hrenewal, -⟩ := List.cons.inj hfirst
      obtain ⟨-, rfl⟩ := MembershipEvent.checksumComputed.inj hrenewal
      rw [hbefore, List.append_nil]
    · rcases List.cons_eq_append_iff.mp hsecond with ⟨-, hlast⟩ | ⟨more'', -, hnone⟩
      · obtain ⟨rfl, -⟩ := List.cons.inj hlast
        exact absurd hentry (Option.some_ne_none _)
      · exact absurd hnone.symm (List.append_ne_nil_of_right_ne_nil _ (List.cons_ne_nil _ _))
  · rcases List.cons_eq_append_iff.mp hmore with ⟨rfl, hfirst⟩ | ⟨more', rfl, -⟩
    · obtain ⟨hrenewal, -⟩ := List.cons.inj hfirst
      obtain ⟨-, rfl⟩ := MembershipEvent.checksumComputed.inj hrenewal
      rw [hold, List.append_nil]
    · exact h before checksum' old more' hold

/-- The log tells the rows and the checksum of the table, and its renewals form a chain. -/
structure Logged (m : Membership) : Prop where
  rows : retold m.events = m.view
  checksum : lastChecksum m.events = m.checksum
  chained : Chained m.events

/-- An entry that tells what happened to the rows keeps the log complete. -/
theorem Logged.logs (hm : m.Logged) (h : m.Logs m' entry) (hentry : entry.checksum? = none)
    (hrows : m'.view = entry.changes.foldl View.overwrite m.view) : m'.Logged := by
  obtain ⟨checksum, hchecksum, hevents⟩ := h
  constructor
  · rw [hevents, hrows, ← hm.rows, retold, View.hear_append, View.hear_renewal]
    rfl
  · rw [hevents, lastChecksum_append _ _ _ hentry, hchecksum]
  · rw [hevents, ← hm.checksum]
    exact hm.chained.append checksum hentry

/-- **Every operation leaves a log that tells the table.** -/
theorem Logged.apply (hm : m.Logged) (h : op.apply now m = .done m' effects) : m'.Logged := by
  have hview : m'.view = effects.foldl View.overwrite m.view := by
    rw [(op.alike_putAll h).view, view_putAll]
  rcases op.logs h with ⟨-, hlogs⟩ | ⟨-, -, hlogs⟩ | ⟨-, -, hsame⟩
  · exact hm.logs hlogs rfl hview
  · exact hm.logs hlogs rfl hview
  · rw [hsame]
    exact ⟨hm.rows, hm.checksum, hm.chained⟩

theorem logged_empty (here : String) (hash : HashFunction) (chance : Chance) :
    (empty here hash chance).Logged := ⟨rfl, rfl, chained_nil⟩

/-- **Every run of an empty table leaves a log that tells the table.** -/
theorem Reached.logged (hm : m.Reached) : m.Logged := by
  obtain ⟨here, hash, chance, ops, hrun⟩ := hm
  exact run_induction (P := Logged) (fun hm h => hm.apply h) (logged_empty here hash chance) hrun

end

/-- **The log is complete.**

    Whatever was done to an empty table, a listener who overwrites, for each claim of each event in
    order, what it holds of the claim's address, holds the rows: one for each address, none left out
    and none added. The checksum is the last one that was logged, and every renewal names the one
    that was logged before it, the first one none.

    Whatever is done next, snapshots that are adopted are logged as a renewal of the checksum and
    one entry, and so is any other operation by which a claim takes effect. The entry lists the
    claims that the operation returns. An operation by which none takes effect logs nothing and
    changes nothing but the gate. -/
theorem log_complete {here : String} {hash : HashFunction} {chance : Chance}
    {ops : List (Clock × Op)} {m : Membership}
    (hrun : (empty here hash chance).run ops = .done m ()) :
    m.Distinct ∧
    (∀ address status inc,
      retold m.events address = some (status, inc) ↔ ⟨address, status, inc⟩ ∈ m.rows) ∧
    lastChecksum m.events = m.checksum ∧ Chained m.events ∧
    ∀ now (op : Op) m' effects, op.apply now m = .done m' effects →
      (∀ snapshots, op = .adopt snapshots → m.Logs m' (.adopted effects)) ∧
      ((∀ snapshots, op ≠ .adopt snapshots) →
        (effects ≠ [] → m.Logs m' (.updated effects)) ∧
        (effects = [] → m' = { m with gate := m'.gate })) := by
  have hm : m.Reached := ⟨here, hash, chance, ops, hrun⟩
  refine ⟨hm.distinct, ?_, hm.logged.checksum, hm.logged.chained, ?_⟩
  · intro address status inc
    rw [hm.logged.rows]
    exact view_eq_some_iff hm.distinct
  · intro now op m' effects happly
    rcases op.logs happly with ⟨⟨snapshots, hadopt⟩, hlogs⟩ | ⟨hother, heffects, hlogs⟩ |
      ⟨hother, heffects, hsame⟩
    · exact ⟨fun _ _ => hlogs, fun hother => absurd hadopt (hother snapshots)⟩
    · exact ⟨fun _ hadopt => absurd hadopt (hother _),
        fun _ => ⟨fun _ => hlogs, fun hnone => absurd hnone heffects⟩⟩
    · exact ⟨fun _ hadopt => absurd hadopt (hother _),
        fun _ => ⟨fun hsome => absurd heffects hsome, fun _ => hsame⟩⟩

/-- Two claims about `b` are held back and logged when the gate opens. Of the next batch `a` refutes
    one claim and overrides the other. -/
theorem log_complete_of_refuting_table :
    ∃ m m',
      (empty "a" hash32 .none).run
        [(1, .assert "a" .alive 1),
          (2, .update [⟨"b", .suspect, 2, "c", 1, 2⟩, ⟨"b", .faulty, 2, "c", 1, 2⟩] false),
          (3, .adopt [⟨some 1, [⟨"c", .alive, 3, "c", 3, 3⟩, ⟨"a", .faulty, 1, "c", 3, 3⟩]⟩]),
          (4, .openGate)] = .done m () ∧
      retold m.events "b" = some (.faulty, 2) ∧ ⟨"b", .faulty, 2⟩ ∈ m.rows ∧
      (Op.update [⟨"a", .faulty, 4, "c", 3, 5⟩, ⟨"b", .alive, 2, "b", 2, 5⟩] false).apply 5 m =
        .done m' [⟨"a", .alive, 5, "a", 5, 5⟩] ∧
      m.Logs m' (.updated [⟨"a", .alive, 5, "a", 5, 5⟩]) := by
  have hrun : (empty "a" hash32 .none).run
      [(1, .assert "a" .alive 1),
        (2, .update [⟨"b", .suspect, 2, "c", 1, 2⟩, ⟨"b", .faulty, 2, "c", 1, 2⟩] false),
        (3, .adopt [⟨some 1, [⟨"c", .alive, 3, "c", 3, 3⟩, ⟨"a", .faulty, 1, "c", 3, 3⟩]⟩]),
        (4, .openGate)] = .done _ () := Attempt.eq_done_of_result? (by decide +kernel)
  obtain ⟨-, hrows, -, -, hnext⟩ := log_complete hrun
  have hrow : retold _ "b" = some (.faulty, 2) := (hrows "b" .faulty 2).mpr (by decide +kernel)
  obtain ⟨-, hupdate⟩ := hnext 5
    (.update [⟨"a", .faulty, 4, "c", 3, 5⟩, ⟨"b", .alive, 2, "b", 2, 5⟩] false) _
    [⟨"a", .alive, 5, "a", 5, 5⟩] (Attempt.eq_done_of_result? (by decide +kernel))
  exact ⟨_, _, hrun, hrow, (hrows "b" .faulty 2).mp hrow,
    Attempt.eq_done_of_result? (by decide +kernel),
    (hupdate fun _ hadopt => nomatch hadopt).1 (List.cons_ne_nil _ _)⟩

end Membership

end GossipRing
