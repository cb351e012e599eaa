/-!
# The time as a node sees it

A node reads two clocks. The wall clock gives time stamps and fresh incarnations, and may stand
still or be set back, also while a node is busy. The other one only measures how long something takes.

* **`Clock`** — the wall clock from some moment on. A batch of claims reads it anew for each claim.
* **`Moment`** — both clocks.
-/

namespace GossipRing

/-- The readings of the wall clock from some moment on, in milliseconds since 1970. After the last one
that is told it stands still. -/
structure Clock where
  reading : UInt64
  later : List UInt64
  deriving DecidableEq, Inhabited, Repr

namespace Clock

/-- A clock that stands still. -/
def still (reading : UInt64) : Clock := ⟨reading, []⟩

instance (n : Nat) : OfNat Clock n := ⟨still (OfNat.ofNat n)⟩

/-- The clock from the next reading on. -/
def next (c : Clock) : Clock :=
  match c.later with
  | [] => c
  | reading :: later => ⟨reading, later⟩

/-- The clock from so many readings on. -/
def after : Clock → Nat → Clock
  | c, 0 => c
  | c, n + 1 => c.next.after n

theorem after_still (reading : UInt64) (n : Nat) : (still reading).after n = still reading := by
  induction n with
  | zero => rfl
  | succ n ih => exact ih

end Clock

/-- Both clocks, in milliseconds. -/
structure Moment where
  wall : Clock
  /-- Since some start, never going back. -/
  elapsed : Nat
  deriving DecidableEq, Inhabited, Repr

end GossipRing
