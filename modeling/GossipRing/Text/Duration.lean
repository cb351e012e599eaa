/-!
# The text of a duration

A duration is written in the largest unit of which it has at least one, with as many decimals as are
needed: `2s`, `1.5s`, `999ms`, `1.25ms`, `0ns`.
-/

namespace GossipRing.Text

/-- The decimals of a fraction with so many digits, without trailing zeros. -/
def decimals : Nat → Nat → String
  | 0, _ => ""
  | digits + 1, n =>
      if n = 0 then "" else toString (n / Nat.pow 10 digits) ++ decimals digits (n % Nat.pow 10 digits)

/-- A number of nanoseconds told in units of `10 ^ digits` nanoseconds each. -/
def inUnits (digits nanos : Nat) (unit : String) : String :=
  let rest := nanos % Nat.pow 10 digits
  toString (nanos / Nat.pow 10 digits) ++ (if rest = 0 then "" else "." ++ decimals digits rest) ++ unit

/-- The text of a duration given in nanoseconds. -/
def duration (nanos : Nat) : String :=
  if 1000000000 ≤ nanos then inUnits 9 nanos "s"
  else if 1000000 ≤ nanos then inUnits 6 nanos "ms"
  else if 1000 ≤ nanos then inUnits 3 nanos "µs"
  else inUnits 0 nanos "ns"

example : duration 2000000000 = "2s" ∧ duration 1001000000 = "1.001s" := by decide
example : duration 999000000 = "999ms" ∧ duration 1250000 = "1.25ms" ∧ duration 0 = "0ns" := by decide

end GossipRing.Text
