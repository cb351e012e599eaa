/-!
# Chance as data

Where a row is inserted, in which order members are probed and how long a node waits between two
join rounds is left to chance. Chance is a supply of draws that is passed in, so that a statement
about every supply is a statement about every outcome; a supply that has run out draws zero.

* **`Chance.draw`** — a number below a bound.
* **`Chance.shuffle`** — the list in a drawn order, which has the same members (`shuffle_perm`).
-/

namespace GossipRing

/-- A supply of draws. -/
structure Chance where
  draws : List Nat
  deriving DecidableEq, Inhabited, Repr

namespace Chance

/-- The supply that always draws zero. -/
def none : Chance := ⟨[]⟩

/-- A number below `bound`, or zero if `bound` is zero, and the supply without that draw. -/
def draw (chance : Chance) (bound : Nat) : Nat × Chance :=
  match chance.draws with
  | [] => (0, chance)
  | d :: rest => (if bound = 0 then 0 else d % bound, ⟨rest⟩)

/-- A draw is below its bound. -/
theorem draw_lt (chance : Chance) {bound : Nat} (h : 0 < bound) : (chance.draw bound).1 < bound := by
  unfold draw
  split
  · exact h
  · simp only [Nat.ne_of_gt h, if_false]
    exact Nat.mod_lt _ h

variable {α : Type}

/-- The members of `xs` in a drawn order: `n` times one of those left is taken out. -/
def shuffleFrom : Nat → List α → Chance → List α × Chance
  | 0, _, chance => ([], chance)
  | n + 1, xs, chance =>
    let (i, chance) := chance.draw xs.length
    match xs[i]? with
    | Option.none => ([], chance)
    | some x =>
      let (rest, chance) := shuffleFrom n (xs.eraseIdx i) chance
      (x :: rest, chance)

/-- The list in a drawn order. -/
def shuffle (xs : List α) (chance : Chance) : List α × Chance :=
  shuffleFrom xs.length xs chance

/-- An item taken out and put in front leaves the same items. -/
theorem cons_eraseIdx_perm (xs : List α) (i : Nat) (h : i < xs.length) :
    (xs[i] :: xs.eraseIdx i).Perm xs := by
  induction xs generalizing i with
  | nil => exact absurd h (Nat.not_lt_zero i)
  | cons x rest ih =>
    cases i with
    | zero => exact List.Perm.refl _
    | succ i => exact (List.Perm.swap x _ _).trans ((ih i (Nat.lt_of_succ_lt_succ h)).cons x)

theorem shuffleFrom_perm (n : Nat) (xs : List α) (chance : Chance) (h : xs.length = n) :
    (shuffleFrom n xs chance).1.Perm xs := by
  induction n generalizing xs chance with
  | zero => rw [List.length_eq_zero_iff.mp h]; exact List.Perm.refl _
  | succ n ih =>
    have hi : (chance.draw xs.length).1 < xs.length := draw_lt chance (by omega)
    simp only [shuffleFrom, List.getElem?_eq_getElem hi]
    refine ((ih _ _ ?_).cons _).trans (cons_eraseIdx_perm xs _ hi)
    rw [List.length_eraseIdx_of_lt hi]
    omega

/-- A drawn order has the same members. -/
theorem shuffle_perm (xs : List α) (chance : Chance) : (shuffle xs chance).1.Perm xs :=
  shuffleFrom_perm xs.length xs chance rfl

end Chance

end GossipRing
