/-!
# What helpers found out

A member that did not answer a ping is pinged by a few helpers. Each helper reports whether it
reached the member; a helper that did not answer itself tells nothing about the member.
-/

namespace GossipRing

/-- What is known about a member after the helpers were asked. -/
inductive Verdict where
  /-- Some helper reached the member. -/
  | reachable
  /-- At least one helper tried, and none reached the member. -/
  | unreachable
  /-- There was nobody to ask. -/
  | noHelpers
  /-- No helper answered. -/
  | inconclusive
  deriving DecidableEq, Repr

namespace Verdict

/-- The verdict of the helpers' reports in the order they came, `none` for a helper that did not
answer. -/
def ofReports : List (Option Bool) → Verdict
  | [] => inconclusive
  | some true :: _ => reachable
  | some false :: rest => if ofReports rest = reachable then reachable else unreachable
  | none :: rest => ofReports rest

/-- The target is reachable as soon as one helper reached it, whenever it reported. -/
theorem ofReports_eq_reachable_iff (reports : List (Option Bool)) :
    ofReports reports = reachable ↔ some true ∈ reports := by
  induction reports with
  | nil => simp [ofReports]
  | cons r rest ih =>
    rcases r with _ | _ | _
    · simp [ofReports, ih]
    · simp only [ofReports, List.mem_cons, Option.some.injEq, Bool.true_eq_false, false_or, ← ih]
      split <;> simp_all
    · simp [ofReports]

end Verdict

end GossipRing
