/-!
# Durations

A duration is counted in nanoseconds, and has fewer than 2^64 whole seconds. Clocks and timers go by
whole milliseconds, and so does what is written of a duration.

* **`Duration.ofMillis`** — so many milliseconds.
* **`Duration.millis`** — the milliseconds that are written of a duration: their lowest 64 bits.
* **`Duration.written`** — what comes back of it. **`Duration.IsWhole`** — nothing is lost: these are
  whole milliseconds, and fewer than 2^64 (`Duration.isWhole_iff`).
* **`Duration.ticks`** — the milliseconds after which a timer of this duration has run out.
-/

namespace GossipRing

/-- A duration. -/
@[ext]
structure Duration where
  nanos : Nat
  inRange : nanos < UInt64.size * 1000000000
  deriving DecidableEq, Repr

namespace Duration

/-- Every word is a number of milliseconds in range. -/
theorem ofMillis_inRange (millis : UInt64) :
    1000000 * millis.toNat < UInt64.size * 1000000000 := by
  have h := millis.toNat_lt_size
  omega

def ofMillis (millis : UInt64) : Duration := ⟨1000000 * millis.toNat, ofMillis_inRange millis⟩

/-- The whole milliseconds, of which the lowest 64 bits are kept. -/
def millis (d : Duration) : UInt64 := UInt64.ofNat (d.nanos / 1000000)

/-- The milliseconds that a timer takes; one that has begun counts. -/
def ticks (d : Duration) : Nat := (999999 + d.nanos) / 1000000

/-- Whether the given milliseconds are longer than the duration. -/
def isExceededBy (d : Duration) (elapsed : Nat) : Bool := d.nanos < 1000000 * elapsed

/-- Twice the duration, but no more than the limit. -/
def doubledUpTo (d limit : Duration) : Duration :=
  if h : 2 * d.nanos ≤ limit.nanos then ⟨2 * d.nanos, Nat.lt_of_le_of_lt h limit.inRange⟩ else limit

/-- What comes back of a duration that is written. -/
def written (d : Duration) : Duration := ofMillis d.millis

/-- The duration is what its milliseconds say. -/
def IsWhole (d : Duration) : Prop := d.written = d

instance (d : Duration) : Decidable d.IsWhole := inferInstanceAs (Decidable (_ = _))

@[simp] theorem millis_ofMillis (n : UInt64) : (ofMillis n).millis = n := by
  rw [millis, ofMillis, Nat.mul_div_cancel_left _ (by decide), UInt64.ofNat_toNat]

@[simp] theorem isWhole_ofMillis (n : UInt64) : (ofMillis n).IsWhole :=
  congrArg ofMillis (millis_ofMillis n)

/-- **What is lost in writing**: a part of a millisecond, and what has no place in 64 bits. -/
theorem isWhole_iff {d : Duration} :
    d.IsWhole ↔ d.nanos % 1000000 = 0 ∧ d.nanos / 1000000 < UInt64.size := by
  have htoNat : d.millis.toNat = d.nanos / 1000000 % 18446744073709551616 := UInt64.toNat_ofNat'
  have hsize : UInt64.size = 18446744073709551616 := rfl
  constructor
  · intro h
    have hnanos : 1000000 * d.millis.toNat = d.nanos := congrArg nanos h
    omega
  · rintro ⟨hwhole, hsmall⟩
    refine Duration.ext ?_
    show 1000000 * d.millis.toNat = d.nanos
    omega

example : ¬ (⟨18446744073709551615 * 1000000000, by decide⟩ : Duration).IsWhole := by decide

end Duration

end GossipRing
