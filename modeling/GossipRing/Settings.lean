import GossipRing.Duration

/-!
# Settings of a node

`Settings.fault?` says what is wrong with settings that a node does not accept; of several faults it
names the first in the order written there.
-/

namespace GossipRing

/-- The settings of one node. -/
structure Settings where
  /-- Nodes of another application may not join. -/
  app : String
  /-- How many positions each server owns on the ring. -/
  replicaPoints : UInt64
  /-- How many messages a claim rides along on, less one. -/
  maxPiggybackCount : UInt32
  /-- How long a member stays suspect before it is declared faulty. -/
  suspicionTimeout : Duration
  pingTimeout : Duration
  pingReqTimeout : Duration
  /-- How many helpers are asked to ping a member that did not answer. -/
  pingReqSize : UInt64
  /-- The pause between two probes. -/
  protocolPeriod : Duration
  /-- How many different peers have to be joined. -/
  joinSize : UInt64
  /-- Joining fails when it has taken longer than this. -/
  maxJoinDuration : Duration
  joinTimeout : Duration
  /-- The pause after the first join round; it doubles after each, up to the largest. -/
  joinDelay : Duration
  maxJoinDelay : Duration
  deriving DecidableEq, Repr

namespace Settings

/-- The settings of a node that was told nothing else. -/
def default : Settings where
  app := "swimring"
  replicaPoints := 100
  maxPiggybackCount := 15
  suspicionTimeout := .ofMillis 5000
  pingTimeout := .ofMillis 1500
  pingReqTimeout := .ofMillis 5000
  pingReqSize := 3
  protocolPeriod := .ofMillis 200
  joinSize := 3
  maxJoinDuration := .ofMillis 120000
  joinTimeout := .ofMillis 1000
  joinDelay := .ofMillis 100
  maxJoinDelay := .ofMillis 5000

instance : Inhabited Settings := ⟨default⟩

/-- The first fault of settings that no node accepts. -/
def fault? (s : Settings) : Option String :=
  if s.app.isEmpty then some "app must not be empty"
  else if s.replicaPoints = 0 then some "replicaPoints must be positive"
  else if s.joinSize = 0 then some "joinSize must be positive"
  else if s.protocolPeriod.nanos = 0 then some "protocolPeriod must be positive"
  else if s.joinDelay.nanos > s.maxJoinDelay.nanos then some "joinDelay must not exceed maxJoinDelay"
  else none

/-- The durations among the settings. -/
def durations (s : Settings) : List Duration :=
  [s.suspicionTimeout, s.pingTimeout, s.pingReqTimeout, s.protocolPeriod, s.maxJoinDuration,
    s.joinTimeout, s.joinDelay, s.maxJoinDelay]

/-- Every duration is what its milliseconds say. -/
def IsWhole (s : Settings) : Prop := ∀ d ∈ s.durations, d.IsWhole

/-- What comes back of settings that are written. -/
def written (s : Settings) : Settings :=
  { s with
    suspicionTimeout := s.suspicionTimeout.written
    pingTimeout := s.pingTimeout.written
    pingReqTimeout := s.pingReqTimeout.written
    protocolPeriod := s.protocolPeriod.written
    maxJoinDuration := s.maxJoinDuration.written
    joinTimeout := s.joinTimeout.written
    joinDelay := s.joinDelay.written
    maxJoinDelay := s.maxJoinDelay.written }

instance (s : Settings) : Decidable s.IsWhole := inferInstanceAs (Decidable (∀ d ∈ s.durations, _))

/-- Settings that a node accepts. -/
def IsValid (s : Settings) : Prop := s.fault? = none

instance (s : Settings) : Decidable s.IsValid := inferInstanceAs (Decidable (_ = _))

example : default.IsValid ∧ default.IsWhole := by decide

theorem written_eq_self_iff {s : Settings} : s.written = s ↔ s.IsWhole := by
  simp only [IsWhole, durations, List.forall_mem_cons, List.not_mem_nil, false_implies, implies_true,
    and_true, Duration.IsWhole]
  constructor
  · intro h
    rw [← h]
    simp only [written, Duration.written, Duration.millis_ofMillis, and_self]
  · rintro ⟨h₁, h₂, h₃, h₄, h₅, h₆, h₇, h₈⟩
    rw [written, h₁, h₂, h₃, h₄, h₅, h₆, h₇, h₈]

/-- Valid settings ask for at least one host to be joined. -/
theorem IsValid.joinSize_ne_zero {s : Settings} (h : s.IsValid) : s.joinSize ≠ 0 := by
  intro hzero
  rw [IsValid, fault?, if_pos hzero] at h
  split at h
  · cases h
  · split at h <;> cases h

end Settings

end GossipRing
