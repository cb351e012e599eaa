import GossipRing.Duration
import GossipRing.Member

/-!
# Suspicion timers

A member that is suspected has until its timer runs out to refute the suspicion. There is one
timer for each suspected address. A timer that runs out sends an expiry, which is claimed later;
by then the timer may have been stopped or started anew. Each start has a generation of its own,
so an expiry counts only for the timer that sent it.

Times are milliseconds on a clock that only moves forward.

* **`Suspicion.start`**, **`Suspicion.stop`**, **`Suspicion.stopAll`**, **`Suspicion.reenable`**
* **`Suspicion.runOut`** — the expiries of the timers that are due.
* **`Suspicion.claim`** — whether an expiry still counts; if it does, its timer is gone.
-/

namespace GossipRing

/-- A timer has run out: the member that was suspected, and at which incarnation. -/
structure Expiry where
  address : String
  incarnation : UInt64
  generation : Nat
  deriving DecidableEq, Repr

/-- The timer of a suspected member. -/
structure Timer where
  address : String
  incarnation : UInt64
  generation : Nat
  /-- When it runs out; `none` once it has. -/
  due : Option Nat
  deriving DecidableEq, Repr

namespace Timer

def expiry (t : Timer) : Expiry := ⟨t.address, t.incarnation, t.generation⟩

/-- The timer runs out at `now` or before. -/
def isDue (now : Nat) (t : Timer) : Bool :=
  match t.due with
  | some time => time ≤ now
  | none => false

end Timer

/-- The timers of one node. -/
structure Suspicion where
  /-- The address of the node, which never suspects itself. -/
  here : String
  /-- How long a timer runs. -/
  timeout : Duration
  timers : List Timer
  /-- The generation of the latest start. -/
  generation : Nat
  disabled : Bool
  deriving DecidableEq, Repr

namespace Suspicion

def empty (here : String) (timeout : Duration) : Suspicion where
  here := here
  timeout := timeout
  timers := []
  generation := 0
  disabled := false

/-- The member has a timer, running or run out. -/
def isSuspected (s : Suspicion) (address : String) : Bool :=
  s.timers.any fun t => t.address = address

/-- Remove the timer of an address, if there is one. -/
def stop (s : Suspicion) (address : String) : Suspicion :=
  { s with timers := s.timers.filter fun t => t.address ≠ address }

/-- Without its timer an address is not suspected, and every other is as it was. -/
theorem isSuspected_stop (s : Suspicion) (stopped address : String) :
    (s.stop stopped).isSuspected address = (decide (address ≠ stopped) && s.isSuspected address) := by
  simp only [isSuspected, stop, List.any_filter]
  by_cases h : address = stopped
  · subst h
    simp
  · simp only [ne_eq, h, not_false_eq_true, decide_true, Bool.true_and]
    congr 1
    funext t
    by_cases ht : t.address = address <;> simp [ht, h]

/-- Start the timer of a member, or start it anew; `false` if that is refused. -/
def start (s : Suspicion) (now : Nat) (m : Member) : Suspicion × Bool :=
  if s.disabled || m.address = s.here then (s, false)
  else
    let s := s.stop m.address
    let timer : Timer :=
      { address := m.address
        incarnation := m.incarnation
        generation := s.generation + 1
        due := some (now + s.timeout.ticks) }
    ({ s with timers := s.timers ++ [timer], generation := s.generation + 1 }, true)

/-- Remove every timer and refuse new ones. -/
def stopAll (s : Suspicion) : Suspicion := { s with timers := [], disabled := true }

/-- Allow timers again. -/
def reenable (s : Suspicion) : Suspicion := { s with disabled := false }

/-- When the next timer runs out. -/
def nextDue? (s : Suspicion) : Option Nat := (s.timers.filterMap Timer.due).min?

/-- Let the timers run out that are due, in the order of their times. The timers stay until their
expiries are claimed. -/
def runOut (s : Suspicion) (now : Nat) : Suspicion × List Expiry :=
  let due := (s.timers.filter (Timer.isDue now)).mergeSort fun a b =>
    decide (a.due.getD 0 ≤ b.due.getD 0)
  ({ s with timers := s.timers.map fun t => if t.isDue now then { t with due := none } else t },
    due.map Timer.expiry)

/-- Claim an expiry. It counts if the timer of its address is the one that sent it. -/
def claim (s : Suspicion) (e : Expiry) : Suspicion × Bool :=
  if s.timers.any fun t => t.address = e.address && t.generation = e.generation then
    (s.stop e.address, true)
  else (s, false)

end Suspicion

end GossipRing
