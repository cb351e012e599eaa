/-!
# Attempts

A member raises its own incarnation to refute a false claim, and an incarnation is a 64-bit word:
once the largest one is reached there is nothing to raise it to, and whatever needed the new
number stops halfway. An `Attempt` is the outcome of an operation that may stop that way. It
carries the state in both cases, since changes made before the stop stay.
-/

namespace GossipRing

/-- The outcome of an operation on a state that may need a new incarnation. -/
inductive Attempt (σ α : Type) where
  /-- The operation was completed. -/
  | done (state : σ) (result : α)
  /-- No incarnation was left to raise; the state is the one at the stop. -/
  | exhausted (state : σ)
  deriving DecidableEq, Repr

namespace Attempt

variable {σ τ α β : Type}

/-- The state after the operation, completed or not. -/
def state : Attempt σ α → σ
  | done s _ => s
  | exhausted s => s

/-- The result, if the operation was completed. -/
def result? : Attempt σ α → Option α
  | done _ a => some a
  | exhausted _ => none

/-- Continue a completed operation. -/
def andThen (first : Attempt σ α) (next : σ → α → Attempt σ β) : Attempt σ β :=
  match first with
  | done s a => next s a
  | exhausted s => exhausted s

/-- Change the result of a completed operation. -/
def map (f : α → β) : Attempt σ α → Attempt σ β
  | done s a => done s (f a)
  | exhausted s => exhausted s

/-- Put the state, at the end or at the stop, into a greater one. -/
def mapState (f : σ → τ) : Attempt σ α → Attempt τ α
  | done s a => done (f s) a
  | exhausted s => exhausted (f s)

@[simp] theorem state_done (s : σ) (a : α) : (done s a).state = s := rfl

@[simp] theorem state_exhausted (s : σ) : (exhausted s : Attempt σ α).state = s := rfl

@[simp] theorem andThen_done (s : σ) (a : α) (next : σ → α → Attempt σ β) :
    (done s a).andThen next = next s a := rfl

@[simp] theorem andThen_exhausted (s : σ) (next : σ → α → Attempt σ β) :
    (exhausted s : Attempt σ α).andThen next = exhausted s := rfl

@[simp] theorem map_done (f : α → β) (s : σ) (a : α) : (done s a).map f = done s (f a) := rfl

@[simp] theorem map_exhausted (f : α → β) (s : σ) :
    (exhausted s : Attempt σ α).map f = exhausted s := rfl

@[simp] theorem state_map (f : α → β) (first : Attempt σ α) : (first.map f).state = first.state := by
  cases first <;> rfl

@[simp] theorem mapState_done (f : σ → τ) (s : σ) (a : α) :
    (done s a).mapState f = done (f s) a := rfl

@[simp] theorem mapState_exhausted (f : σ → τ) (s : σ) :
    (exhausted s : Attempt σ α).mapState f = exhausted (f s) := rfl

@[simp] theorem state_mapState (f : σ → τ) (first : Attempt σ α) :
    (first.mapState f).state = f first.state := by
  cases first <;> rfl

/-- An operation with a result was completed. -/
theorem eq_done_of_result? {first : Attempt σ α} {a : α} (h : first.result? = some a) :
    first = done first.state a := by
  cases first with
  | done s b => exact congrArg (done s) (Option.some.inj h)
  | exhausted s => exact nomatch h

/-- An operation without a result stopped. -/
theorem eq_exhausted_of_result? {first : Attempt σ α} (h : first.result? = none) :
    first = exhausted first.state := by
  cases first with
  | done s b => exact nomatch h
  | exhausted s => rfl

/-- Of a sequence that was completed both parts were. -/
theorem andThen_eq_done {first : Attempt σ α} {next : σ → α → Attempt σ β} {s : σ} {b : β}
    (h : first.andThen next = done s b) : ∃ s₁ a, first = done s₁ a ∧ next s₁ a = done s b := by
  cases first with
  | done s₁ a => exact ⟨s₁, a, rfl, h⟩
  | exhausted s₁ => exact nomatch h

/-- A mapped attempt completes where the attempt itself does. -/
theorem map_eq_done {f : α → β} {first : Attempt σ α} {s : σ} {b : β}
    (h : first.map f = done s b) : ∃ a, first = done s a ∧ f a = b := by
  cases first with
  | done s₁ a =>
      obtain ⟨rfl, hb⟩ := done.inj h
      exact ⟨a, rfl, hb⟩
  | exhausted s₁ => exact nomatch h

/-- An attempt on a part of the state completes where the attempt on that part does. -/
theorem mapState_eq_done {f : σ → τ} {first : Attempt σ α} {t : τ} {a : α}
    (h : first.mapState f = done t a) : ∃ s, first = done s a ∧ t = f s := by
  cases first with
  | done s b =>
      obtain ⟨rfl, rfl⟩ := done.inj h
      exact ⟨s, rfl, rfl⟩
  | exhausted s => exact nomatch h

/-- A sequence stopped in its first part or in its second one. -/
theorem andThen_eq_exhausted {first : Attempt σ α} {next : σ → α → Attempt σ β} {s : σ}
    (h : first.andThen next = exhausted s) :
    first = exhausted s ∨ ∃ s₁ a, first = done s₁ a ∧ next s₁ a = exhausted s := by
  cases first with
  | done s₁ a => exact Or.inr ⟨s₁, a, rfl, h⟩
  | exhausted s₁ => exact Or.inl (congrArg exhausted (exhausted.inj h))

/-- A mapped attempt stops where the attempt itself does, with the same state. -/
theorem map_eq_exhausted {f : α → β} {first : Attempt σ α} {s : σ}
    (h : first.map f = exhausted s) : first = exhausted s := by
  cases first with
  | done s₁ a => exact nomatch h
  | exhausted s₁ => exact congrArg exhausted (exhausted.inj h)

/-- An attempt on a part of the state stops where the attempt on that part does. -/
theorem mapState_eq_exhausted {f : σ → τ} {first : Attempt σ α} {t : τ}
    (h : first.mapState f = exhausted t) : ∃ s, first = exhausted s ∧ t = f s := by
  cases first with
  | done s a => exact nomatch h
  | exhausted s => exact ⟨s, rfl, (exhausted.inj h).symm⟩

end Attempt

end GossipRing
