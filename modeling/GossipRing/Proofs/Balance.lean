import GossipRing.Proofs.TreeRefinement
import Mathlib.Algebra.GroupWithZero.Nat
import Mathlib.Data.Nat.Log

/-!
# The balance of a red-black tree

Toward: in a tree that keeps the rules no entry lies deep. Every path passes the same number of black
nodes, and at most every second node is red, so a path is short against the size of the tree.

* **`Descent`** — a path from the root down to a subtree, as the colours of the nodes on it.
* **`Balanced`** — the rules by recursion, with the number of black nodes on every path. They bound the
  length of a path by the size of the tree (`Balanced.two_pow_le_size`, `Balanced.length_le`).
* **`Sound`** — a balanced tree with a black root, and how deep its nodes lie at most.
-/

namespace GossipRing.RedBlack

variable {α : Type}

namespace Tree

open Color

/-! ## Paths and rules -/

/-- The colour of the root. Where there is no node it counts as black. -/
def color : Tree α → Color
  | leaf => black
  | node c _ _ _ _ => c

@[simp] theorem color_leaf : (leaf : Tree α).color = black := rfl

@[simp] theorem color_node (c : Color) (l : Tree α) (k : UInt32) (v : α) (r : Tree α) :
    (node c l k v r).color = c := rfl

/-- The way from the root of a tree down to a subtree passes nodes of these colours. The root of the
    subtree is not among them. -/
inductive Descent : Tree α → List Color → Tree α → Prop
  | here {t : Tree α} : Descent t [] t
  | left {c : Color} {l r s : Tree α} {k : UInt32} {v : α} {path : List Color}
      (h : Descent l path s) : Descent (node c l k v r) (c :: path) s
  | right {c : Color} {l r s : Tree α} {k : UInt32} {v : α} {path : List Color}
      (h : Descent r path s) : Descent (node c l k v r) (c :: path) s

/-- No red node has a red child, and below the root every path to a leaf passes this many black
    nodes. -/
inductive Balanced : ℕ → Tree α → Prop
  | leaf : Balanced 0 leaf
  | red {n : ℕ} {l r : Tree α} {k : UInt32} {v : α} (hl : Balanced n l) (hr : Balanced n r)
      (hleft : l.color = black) (hright : r.color = black) : Balanced n (node red l k v r)
  | black {n : ℕ} {l r : Tree α} {k : UInt32} {v : α} (hl : Balanced n l) (hr : Balanced n r) :
      Balanced (n + 1) (node black l k v r)

section

variable {t s l r a b : Tree α} {path : List Color} {n : ℕ} {c : Color} {k j : UInt32} {v u : α}

/-- The way down goes on to a child. -/
theorem Descent.concat (h : Descent t path (node c l k v r)) : Descent t (path ++ [c]) l := by
  generalize hs : node c l k v r = s at h
  induction h with
  | here =>
      subst hs
      exact .left .here
  | left h ih => exact .left (ih hs)
  | right h ih => exact .right (ih hs)

namespace Balanced

/-- Every subtree of a balanced tree is balanced. -/
theorem of_descent (h : Balanced n t) (hdescent : Descent t path s) : ∃ m, Balanced m s := by
  induction hdescent generalizing n with
  | here => exact ⟨n, h⟩
  | left _ ih =>
      cases h with
      | red hl _ _ _ => exact ih hl
      | black hl _ => exact ih hl
  | right _ ih =>
      cases h with
      | red _ hr _ _ => exact ih hr
      | black _ hr => exact ih hr

theorem count_black (h : Balanced n t) (hdescent : Descent t path .leaf) :
    path.count Color.black = n := by
  generalize hs : (Tree.leaf : Tree α) = s at hdescent
  induction hdescent generalizing n with
  | here =>
      subst hs
      cases h
      rfl
  | left _ ih =>
      cases h with
      | red hl _ _ _ =>
          rw [List.count_cons_of_ne (by decide)]
          exact ih hl hs
      | black hl _ => rw [List.count_cons_self, ih hl hs]
  | right _ ih =>
      cases h with
      | red _ hr _ _ =>
          rw [List.count_cons_of_ne (by decide)]
          exact ih hr hs
      | black _ hr => rw [List.count_cons_self, ih hr hs]

/-- At most every second node is red, so a path is no longer than twice its black nodes, and one more
    under a red root. -/
theorem length_le (h : Balanced n t) (hdescent : Descent t path s) :
    path.length ≤ 2 * n + 1 ∧ (t.color = Color.black → path.length ≤ 2 * n) := by
  induction hdescent generalizing n with
  | here => exact ⟨Nat.zero_le _, fun _ => Nat.zero_le _⟩
  | left _ ih =>
      cases h with
      | red hl _ hleft _ => exact ⟨Nat.succ_le_succ ((ih hl).2 hleft), nofun⟩
      | black hl _ =>
          have hbelow := (ih hl).1
          rw [List.length_cons]
          omega
  | right _ ih =>
      cases h with
      | red _ hr _ hright => exact ⟨Nat.succ_le_succ ((ih hr).2 hright), nofun⟩
      | black _ hr =>
          have hbelow := (ih hr).1
          rw [List.length_cons]
          omega

/-- Already the black nodes make a tree of this size. -/
theorem two_pow_le_size (h : Balanced n t) : 2 ^ n ≤ t.size + 1 := by
  induction h with
  | leaf => exact Nat.le_refl 1
  | red _ _ _ _ ihl ihr =>
      rw [size]
      omega
  | black _ _ ihl ihr =>
      rw [size, pow_succ]
      omega

end Balanced

/-- Painting the root black breaks no rule. -/
theorem Balanced.paint_black (h : Balanced n t) : ∃ m, Balanced m (paint Color.black t) := by
  cases h with
  | leaf => exact ⟨0, .leaf⟩
  | red hl hr _ _ => exact ⟨_, .black hl hr⟩
  | black hl hr => exact ⟨_, .black hl hr⟩

theorem color_paint_black (t : Tree α) : (paint black t).color = black := by
  cases t <;> rfl

/-- The root is black, and the other rules hold. -/
structure Sound (t : Tree α) : Prop where
  root : t.color = black
  balanced : ∃ n, Balanced n t

theorem sound_leaf : Sound (leaf : Tree α) := ⟨rfl, 0, .leaf⟩

/-- No node lies deep. The path down to it is one node longer with the node itself. -/
theorem Sound.depth_le (h : Sound t) (hdescent : Descent t path (node c l k v r)) :
    path.length + 1 ≤ 2 * Nat.log 2 (t.size + 1) := by
  obtain ⟨n, hn⟩ := h.balanced
  have hlength := (hn.length_le hdescent.concat).2 h.root
  have hlog : n ≤ Nat.log 2 (t.size + 1) := Nat.le_log_of_pow_le (by decide) hn.two_pow_le_size
  rw [List.length_append, List.length_singleton] at hlength
  omega

end

end Tree

end GossipRing.RedBlack
