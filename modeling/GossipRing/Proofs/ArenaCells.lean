import GossipRing.RedBlack.Arena
import GossipRing.Proofs.Balance
import Mathlib.Algebra.Order.Group.Multiset
import Mathlib.Data.Multiset.Range
import Mathlib.Tactic.Abel

/-!
# What the slots of an arena hold

Toward: links that are changed one by one in place still make up a tree. A tree whose entries are
paired with the numbers of their slots determines what those slots hold. The cells of a whole arena
are put together from the cells of its parts, no two of one number, so a change of one cell leaves
the others alone.

* **`Holds`** — the slots hold exactly these cells. `Holds.update` changes one of them.
* **`Frame`** — a node with one side left open. The frames from a subtree up to the root are its
  context, and `plug` closes it.
* **`Shows`** — the slots hold a tree, a sentinel, and some cells outside the tree.
* **`Shows.paint`**, **`Shows.rotate`** — what a step in the arena does to the tree, anywhere in it. The
  two sides are treated as one (`join`).
-/

namespace GossipRing.RedBlack

variable {α : Type}

/-! ## Sides -/

/-- A node given by its sides as seen from one of them. -/
def Tree.join {β : Type} (side : Side) (c : Color) (near : Tree β) (k : UInt32) (e : β)
    (far : Tree β) : Tree β :=
  match side with
  | .left => .node c near k e far
  | .right => .node c far k e near

/-- The slot of an entry, given by its children as seen from one side. -/
def Slot.link (side : Side) (k : UInt32) (v : α) (c : Color) (near far parent : ℕ) : Slot α :=
  match side with
  | .left => ⟨k, some v, c, near, far, parent⟩
  | .right => ⟨k, some v, c, far, near, parent⟩

@[simp] theorem Side.opp_opp (side : Side) : side.opp.opp = side := by
  cases side <;> rfl

/-- There are two sides, so one is the other or its opposite. -/
theorem Side.eq_or_eq_opp (side side' : Side) : side = side' ∨ side = side'.opp := by
  cases side <;> cases side' <;> simp [Side.opp]

namespace Slot

variable {side : Side} {k : UInt32} {v : α} {c : Color} {near far parent : ℕ}

@[simp] theorem child_link : (link side k v c near far parent).child side = near := by
  cases side <;> rfl

@[simp] theorem child_opp_link : (link side k v c near far parent).child side.opp = far := by
  cases side <;> rfl

@[simp] theorem setChild_link (i : ℕ) :
    (link side k v c near far parent).setChild side i = link side k v c i far parent := by
  cases side <;> rfl

@[simp] theorem setChild_opp_link (i : ℕ) :
    (link side k v c near far parent).setChild side.opp i = link side k v c near i parent := by
  cases side <;> rfl

@[simp] theorem key_link : (link side k v c near far parent).key = k := by
  cases side <;> rfl

@[simp] theorem value_link : (link side k v c near far parent).value = some v := by
  cases side <;> rfl

@[simp] theorem color_link : (link side k v c near far parent).color = c := by
  cases side <;> rfl

@[simp] theorem parent_link : (link side k v c near far parent).parent = parent := by
  cases side <;> rfl

@[simp] theorem paint_link (c' : Color) :
    { link side k v c near far parent with color := c' } = link side k v c' near far parent := by
  cases side <;> rfl

@[simp] theorem setParent_link (p : ℕ) :
    { link side k v c near far parent with parent := p } = link side k v c near far p := by
  cases side <;> rfl

/-- The sentinel while its parent is set. -/
def nil (parent : ℕ) : Slot α := { sentinel with parent := parent }

@[simp] theorem color_nil (p : ℕ) : (nil p : Slot α).color = .black := rfl

@[simp] theorem parent_nil (p : ℕ) : (nil p : Slot α).parent = p := rfl

end Slot

namespace Tree

variable {β : Type} {side : Side} {c : Color} {near far : Tree β} {k : UInt32} {e : β}

theorem join_opp (side : Side) (c : Color) (near : Tree β) (k : UInt32) (e : β) (far : Tree β) :
    join side.opp c near k e far = join side c far k e near := by
  cases side <;> rfl

@[simp] theorem color_join : (join side c near k e far).color = c := by
  cases side <;> rfl

@[simp] theorem paint_join (c' : Color) :
    paint c' (join side c near k e far) = join side c' near k e far := by
  cases side <;> rfl

theorem node_ne_leaf {l r : Tree β} : node c l k e r ≠ leaf := nofun

theorem join_ne_leaf : join side c near k e far ≠ leaf := by
  cases side <;> exact node_ne_leaf

/-- A tree that is not a leaf is a node, seen from either side. -/
theorem exists_join (side : Side) {t : Tree β} (h : t ≠ leaf) :
    ∃ c near k e far, t = join side c near k e far := by
  cases t with
  | leaf => exact absurd rfl h
  | node c l k e r =>
      cases side with
      | left => exact ⟨c, l, k, e, r, rfl⟩
      | right => exact ⟨c, r, k, e, l, rfl⟩

end Tree

/-! ## Cells -/

/-- The slots hold these cells and no others, and no two cells have one number. -/
structure Holds (slots : Array (Slot α)) (cells : Multiset (ℕ × Slot α)) : Prop where
  nodup : (cells.map Prod.fst).Nodup
  getElem? : ∀ i slot, slots[i]? = some slot ↔ (i, slot) ∈ cells

namespace Holds

variable {slots : Array (Slot α)} {cells cells' rest : Multiset (ℕ × Slot α)} {i j : ℕ}
  {slot slot' : Slot α} {a : Links α}

theorem congr (h : Holds slots cells) (hcells : cells = cells') : Holds slots cells' :=
  hcells ▸ h

/-- A slot that is among the cells is what is read at its number. -/
theorem read (h : Holds slots cells) (hmem : (i, slot) ∈ cells) : slots[i]? = some slot :=
  (h.getElem? i slot).mpr hmem

/-- The numbers of the cells are those of the slots. -/
theorem mem_map_iff (h : Holds slots cells) : i ∈ cells.map Prod.fst ↔ i < slots.size := by
  rw [Multiset.mem_map]
  constructor
  · rintro ⟨⟨i, slot⟩, hmem, rfl⟩
    exact (Array.getElem?_eq_some_iff.mp (h.read hmem)).1
  · intro hlt
    exact ⟨(i, slots[i]), (h.getElem? i _).mp (Array.getElem?_eq_getElem hlt), rfl⟩

/-- The cells are numbered as the slots are, without a gap. -/
theorem map_fst (h : Holds slots cells) : cells.map Prod.fst = Multiset.range slots.size := by
  refine (Multiset.Nodup.ext h.nodup (Multiset.nodup_range _)).mpr fun i => ?_
  rw [h.mem_map_iff, Multiset.mem_range]

/-- There are as many cells as slots. -/
theorem card (h : Holds slots cells) : cells.card = slots.size := by
  rw [← Multiset.card_map Prod.fst, h.map_fst, Multiset.card_range]

/-- The cells without their numbers are what the slots hold. -/
theorem map_snd (h : Holds slots cells) :
    cells.map Prod.snd = (slots.toList : Multiset (Slot α)) := by
  refine Multiset.map_injective (Option.some_injective _) ?_
  have hread : cells.map (fun cell => some cell.2) = cells.map fun cell => slots[cell.1]? :=
    Multiset.map_congr rfl fun cell hcell => (h.read hcell).symm
  calc (cells.map Prod.snd).map some
      = cells.map fun cell => slots[cell.1]? := by rw [Multiset.map_map]; exact hread
    _ = (cells.map Prod.fst).map fun i => slots[i]? := by rw [Multiset.map_map]; rfl
    _ = (slots.toList : Multiset (Slot α)).map some := by
        rw [h.map_fst, Multiset.range, Multiset.map_coe, Multiset.map_coe]
        congr 1
        refine List.ext_getElem? fun i => ?_
        by_cases hi : i < slots.size <;> simp [hi]

/-- Cells of different parts have different numbers. -/
theorem ne (h : Holds slots (cells + cells')) (hi : i ∈ cells.map Prod.fst)
    (hj : j ∈ cells'.map Prod.fst) : i ≠ j := by
  rintro rfl
  have hnodup := h.nodup
  rw [Multiset.map_add, Multiset.nodup_add] at hnodup
  exact Multiset.disjoint_left.mp hnodup.2.2 hi hj

/-- **One cell is changed, and the others stay.** -/
theorem update (h : Holds a.slots ({(i, slot)} + rest)) (change : Slot α → Slot α) :
    ∃ a', a.update i change = some a' ∧ Holds a'.slots ({(i, change slot)} + rest) ∧
      a'.root = a.root := by
  have hread := h.read (Multiset.mem_add.mpr (Or.inl (Multiset.mem_singleton_self _)))
  refine ⟨{ a with slots := a.slots.setIfInBounds i (change slot) }, ?_, ⟨?_, ?_⟩, rfl⟩
  · rw [Links.update, hread]
    rfl
  · have hnodup := h.nodup
    rw [Multiset.map_add, Multiset.map_singleton] at hnodup ⊢
    exact hnodup
  · intro j slot'
    have hlt : i < a.slots.size := (Array.getElem?_eq_some_iff.mp hread).1
    -- what is read at a number afterwards: the changed slot there, and what was read before elsewhere
    show (a.slots.setIfInBounds i (change slot))[j]? = some slot' ↔ _
    rw [Array.getElem?_setIfInBounds, Multiset.mem_add, Multiset.mem_singleton, Prod.mk.injEq]
    by_cases heq : i = j
    · subst heq
      have hnot : (i, slot') ∉ rest := fun hmem =>
        h.ne (i := i) (by simp) (Multiset.mem_map_of_mem Prod.fst hmem) rfl
      rw [if_pos rfl, if_pos hlt, Option.some.injEq]
      constructor
      · exact fun heq => Or.inl ⟨rfl, heq.symm⟩
      · rintro (⟨-, heq⟩ | hmem)
        · exact heq.symm
        · exact absurd hmem hnot
    · rw [if_neg heq, h.getElem?, Multiset.mem_add, Multiset.mem_singleton, Prod.mk.injEq]
      constructor
      · rintro (⟨heq', -⟩ | hmem)
        · exact absurd heq'.symm heq
        · exact Or.inr hmem
      · rintro (⟨heq', -⟩ | hmem)
        · exact absurd heq'.symm heq
        · exact Or.inr hmem

/-- A slot pushed behind the others is a new cell. -/
theorem push (h : Holds slots cells) (slot : Slot α) :
    Holds (slots.push slot) ({(slots.size, slot)} + cells) := by
  -- the new number is none that is in use
  have hnot : slots.size ∉ cells.map Prod.fst := by
    intro hmem
    obtain ⟨⟨i, slot'⟩, hcell, rfl⟩ := Multiset.mem_map.mp hmem
    have hread := (h.getElem? _ _).mpr hcell
    exact absurd (Array.getElem?_eq_some_iff.mp hread).1 (Nat.lt_irrefl _)
  refine ⟨?_, ?_⟩
  · rw [Multiset.singleton_add, Multiset.map_cons, Multiset.nodup_cons]
    exact ⟨hnot, h.nodup⟩
  · intro i slot'
    rw [Array.getElem?_push, Multiset.mem_add, Multiset.mem_singleton, Prod.mk.injEq,
      ← h.getElem? i slot']
    by_cases heq : i = slots.size
    · subst heq
      rw [if_pos rfl]
      have hnone : slots[slots.size]? = none := by simp
      rw [hnone]
      simp [eq_comm]
    · rw [if_neg heq]
      simp [heq]

end Holds

/-! ## Trees of numbered entries -/

/-- The number of the root's slot, which is that of the sentinel for a leaf. -/
def Tree.number : Tree (ℕ × α) → ℕ
  | .leaf => 0
  | .node _ _ _ e _ => e.1

/-- What the slots of a tree hold that hangs below `parent`. -/
def Tree.cells (parent : ℕ) : Tree (ℕ × α) → Multiset (ℕ × Slot α)
  | .leaf => 0
  | .node c l k e r =>
    {(e.1, ⟨k, some e.2, c, l.number, r.number, parent⟩)} + (cells e.1 l + cells e.1 r)

/-- The parent of the sentinel once the parent of the tree was set. That of a leaf is the
    sentinel's. -/
def Tree.nilParent (new old : ℕ) : Tree (ℕ × α) → ℕ
  | .leaf => new
  | .node .. => old

namespace Tree

@[simp] theorem number_leaf : (leaf : Tree (ℕ × α)).number = 0 := rfl

@[simp] theorem number_node (c : Color) (l : Tree (ℕ × α)) (k : UInt32) (e : ℕ × α)
    (r : Tree (ℕ × α)) : (node c l k e r).number = e.1 := rfl

@[simp] theorem cells_leaf (p : ℕ) : (leaf : Tree (ℕ × α)).cells p = 0 := rfl

@[simp] theorem number_join (side : Side) (c : Color) (near : Tree (ℕ × α)) (k : UInt32)
    (e : ℕ × α) (far : Tree (ℕ × α)) : (join side c near k e far).number = e.1 := by
  cases side <;> rfl

/-- The cells of a node are its own and those of its subtrees, which have it as their parent. -/
theorem cells_join (p : ℕ) (side : Side) (c : Color) (near : Tree (ℕ × α)) (k : UInt32)
    (e : ℕ × α) (far : Tree (ℕ × α)) :
    (join side c near k e far).cells p =
      {(e.1, .link side k e.2 c near.number far.number p)} + (near.cells e.1 + far.cells e.1) := by
  cases side with
  | left => rfl
  | right =>
      rw [add_comm (near.cells e.1)]
      rfl

/-- There is a cell for every entry. -/
theorem card_cells (t : Tree (ℕ × α)) (p : ℕ) : (t.cells p).card = t.size := by
  induction t generalizing p with
  | leaf => rfl
  | node c l k e r ihl ihr =>
      rw [cells, Multiset.card_add, Multiset.card_add, Multiset.card_singleton, ihl, ihr, size]
      omega

/-- The root of a tree that is not a leaf has a cell. -/
theorem number_mem_cells {t : Tree (ℕ × α)} (h : t ≠ leaf) (p : ℕ) :
    t.number ∈ (t.cells p).map Prod.fst := by
  cases t with
  | leaf => exact absurd rfl h
  | node c l k e r => simp [cells, number]

end Tree

/-! ## Contexts -/

/-- A node with one side left open. -/
structure Frame (α : Type) where
  /-- The side that is open. -/
  side : Side
  color : Color
  key : UInt32
  entry : ℕ × α
  /-- What is on the other side. -/
  other : Tree (ℕ × α)

/-- Close the open side. -/
def Frame.fill (f : Frame α) (t : Tree (ℕ × α)) : Tree (ℕ × α) :=
  .join f.side f.color t f.key f.entry f.other

/-- What is filled into a frame has the number of the frame's node above it. -/
@[simp] theorem Frame.number_fill (f : Frame α) (t : Tree (ℕ × α)) :
    (f.fill t).number = f.entry.1 := Tree.number_join ..

@[simp] theorem Frame.color_fill (f : Frame α) (t : Tree (ℕ × α)) :
    (f.fill t).color = f.color := Tree.color_join

theorem Frame.fill_ne_leaf (f : Frame α) (t : Tree (ℕ × α)) : f.fill t ≠ .leaf := Tree.join_ne_leaf

/-- Put a subtree below the frames, the first of which is next to it. -/
def plug : List (Frame α) → Tree (ℕ × α) → Tree (ℕ × α)
  | [], t => t
  | f :: frames, t => plug frames (f.fill t)

/-- The number of the node below which the open place is. -/
def above : List (Frame α) → ℕ
  | [] => 0
  | f :: _ => f.entry.1

/-- What the slots of the frames and of their other sides hold, where the slot `hole` is in the open
    place. -/
def around (hole : ℕ) : List (Frame α) → Multiset (ℕ × Slot α)
  | [] => 0
  | f :: frames =>
    {(f.entry.1, .link f.side f.key f.entry.2 f.color hole f.other.number (above frames))} +
      (f.other.cells f.entry.1 + around f.entry.1 frames)

/-- The number of the root, where the slot `hole` is in the open place. -/
def outermost (hole : ℕ) : List (Frame α) → ℕ
  | [] => hole
  | f :: frames => outermost f.entry.1 frames

/-- There is a cell for every frame, and there may be more on the other sides. -/
theorem length_le_card_around (frames : List (Frame α)) (hole : ℕ) :
    frames.length ≤ (around hole frames).card := by
  induction frames generalizing hole with
  | nil => exact Nat.zero_le _
  | cons f frames ih =>
      rw [around, Multiset.card_add, Multiset.card_add, Multiset.card_singleton, List.length_cons]
      have := ih f.entry.1
      omega

/-- The root is among the frames. -/
theorem outermost_mem_around (f : Frame α) (frames : List (Frame α)) (hole : ℕ) :
    outermost hole (f :: frames) ∈ (around hole (f :: frames)).map Prod.fst := by
  induction frames generalizing f hole with
  | nil => simp [around, outermost]
  | cons g frames ih =>
      rw [outermost, around, Multiset.map_add, Multiset.map_add]
      simp only [Multiset.mem_add]
      exact Or.inr (Or.inr (ih g f.entry.1))

/-- The outermost node of a context is the root of whatever is plugged in. -/
theorem number_plug (frames : List (Frame α)) (t : Tree (ℕ × α)) :
    (plug frames t).number = outermost t.number frames := by
  induction frames generalizing t with
  | nil => rfl
  | cons f frames ih =>
      rw [plug, ih, Frame.number_fill]
      rfl

/-- The cells of a whole are those of the subtree and those around it. -/
theorem cells_plug (frames : List (Frame α)) (t : Tree (ℕ × α)) :
    (plug frames t).cells 0 = t.cells (above frames) + around t.number frames := by
  induction frames generalizing t with
  | nil => simp [plug, above, around]
  | cons f frames ih =>
      rw [plug, ih, Frame.fill, Tree.cells_join, Tree.number_join, around]
      simp only [above]
      abel

/-! ## Writing links -/

namespace Holds

open RedBlack.Tree

variable {a : Links α} {rest : Multiset (ℕ × Slot α)} {i p q : ℕ} {side : Side} {k : UInt32} {v : α}
  {c : Color} {near far parent : ℕ} {frames : List (Frame α)} {t : Tree (ℕ × α)}

/-- Hanging another node below one changes that one slot. -/
theorem setChild (h : Holds a.slots ({(i, .link side k v c near far parent)} + rest)) (new : ℕ) :
    ∃ a', a.setChild side i new = some a' ∧
      Holds a'.slots ({(i, .link side k v c new far parent)} + rest) ∧ a'.root = a.root := by
  have hupdate := h.update (Slot.setChild side new)
  rw [Slot.setChild_link] at hupdate
  exact hupdate

theorem setChild_opp (h : Holds a.slots ({(i, .link side k v c near far parent)} + rest))
    (new : ℕ) :
    ∃ a', a.setChild side.opp i new = some a' ∧
      Holds a'.slots ({(i, .link side k v c near new parent)} + rest) ∧ a'.root = a.root := by
  have hupdate := h.update (Slot.setChild side.opp new)
  rw [Slot.setChild_opp_link] at hupdate
  exact hupdate

/-- Telling a node of another parent changes that one slot. -/
theorem setParent (h : Holds a.slots ({(i, .link side k v c near far parent)} + rest)) (new : ℕ) :
    ∃ a', a.setParent i new = some a' ∧
      Holds a'.slots ({(i, .link side k v c near far new)} + rest) ∧ a'.root = a.root := by
  have hupdate := h.update fun slot => { slot with parent := new }
  rw [Slot.setParent_link] at hupdate
  exact hupdate

/-- Painting a node changes that one slot. -/
theorem paint (h : Holds a.slots ({(i, .link side k v c near far parent)} + rest)) (new : Color) :
    ∃ a', a.paint i new = some a' ∧
      Holds a'.slots ({(i, .link side k v new near far parent)} + rest) ∧ a'.root = a.root := by
  have hupdate := h.update fun slot => { slot with color := new }
  rw [Slot.paint_link] at hupdate
  exact hupdate

/-- The sentinel's number is not that of another cell. -/
theorem ne_zero (h : Holds a.slots ({(0, .nil q)} + rest)) (hi : i ∈ rest.map Prod.fst) : i ≠ 0 :=
  (h.ne (by simp) hi).symm

/-- The parent of a subtree is set. If it is a leaf, it is the sentinel that is told. -/
theorem tell (h : Holds a.slots ({(0, .nil q)} + t.cells p + rest)) (new : ℕ) :
    ∃ a', a.setParent t.number new = some a' ∧
      Holds a'.slots ({(0, .nil (t.nilParent new q))} + t.cells new + rest) ∧ a'.root = a.root := by
  cases t with
  | leaf =>
      have hcells : Holds a.slots ({(0, .nil q)} + rest) := h.congr (by simp)
      obtain ⟨a', hstep, h', hroot⟩ := hcells.update fun slot => { slot with parent := new }
      exact ⟨a', hstep, h'.congr (by simp [nilParent, Slot.nil]), hroot⟩
  -- the root of the tree is told, and nothing in it changes
  | node c l k e r =>
      have hcells : Holds a.slots ({(e.1, .link .left k e.2 c l.number r.number p)} +
          ({(0, .nil q)} + (l.cells e.1 + r.cells e.1) + rest)) := h.congr (by
        rw [Tree.cells, Slot.link]
        abel)
      obtain ⟨a', hstep, h', hroot⟩ := hcells.setParent new
      refine ⟨a', hstep, h'.congr ?_, hroot⟩
      rw [Tree.cells, Slot.link, nilParent]
      abel

/-- Telling a subtree of its new parent changes the parent link of its root, and a leaf has none. -/
theorem adopt (h : Holds a.slots ({(0, .nil q)} + t.cells p + rest)) (new : ℕ) :
    ∃ a', a.adopt t.number new = some a' ∧
      Holds a'.slots ({(0, .nil q)} + t.cells new + rest) ∧ a'.root = a.root := by
  cases t with
  | leaf => exact ⟨a, rfl, h, rfl⟩
  | node c l k e r =>
      have hne : (node c l k e r).number ≠ 0 :=
        (h.congr (add_assoc _ _ _)).ne_zero (by simp [Tree.cells, number])
      rw [Links.adopt, if_neg hne]
      exact h.tell new

/-- A subtree that hangs elsewhere has another number than a node. -/
theorem number_ne {x : ℕ} {slot : Slot α}
    (h : Holds a.slots ({(0, .nil q)} + ({(x, slot)} + (t.cells p + rest)))) : t.number ≠ x := by
  by_cases hleaf : t = leaf
  · rw [hleaf]
    exact (h.ne_zero (by simp)).symm
  · have hparts : Holds a.slots (t.cells p + ({(x, slot)} + ({(0, .nil q)} + rest))) :=
      h.congr (by abel)
    exact hparts.ne (number_mem_cells hleaf p) (by simp)

/-- **Another node hangs where `x` did.** Its own cell, and its parent, are not changed yet. -/
theorem hang {x : ℕ} {slot : Slot α}
    (h : Holds a.slots ({(0, .nil q)} + ({(x, slot)} + (around x frames + rest))))
    (hroot : a.root = outermost x frames) (side : Side) (new : ℕ) :
    ∃ a', a.hang side (above frames) x new = some a' ∧
      Holds a'.slots ({(0, .nil q)} + ({(x, slot)} + (around new frames + rest))) ∧
      a'.root = outermost new frames := by
  cases frames with
  | nil => exact ⟨{ a with root := new }, rfl, h, rfl⟩
  | cons f frames =>
      have hp : f.entry.1 ≠ 0 := h.ne_zero (by simp [around])
      have hother : f.other.number ≠ x := by
        have hparts : Holds a.slots ({(0, .nil q)} + ({(x, slot)} + (f.other.cells f.entry.1 +
            ({(f.entry.1, .link f.side f.key f.entry.2 f.color x f.other.number (above frames))} +
              around f.entry.1 frames + rest)))) := h.congr (by rw [around]; abel)
        exact hparts.number_ne
      have hparent : Holds a.slots
          ({(f.entry.1, .link f.side f.key f.entry.2 f.color x f.other.number (above frames))} +
            ({(0, .nil q)} + {(x, slot)} + f.other.cells f.entry.1 + around f.entry.1 frames +
              rest)) := h.congr (by rw [around]; abel)
      obtain ⟨a', hstep, h', hroot'⟩ := hparent.setChild new
      have hread := hparent.read (Multiset.mem_add.mpr (Or.inl (Multiset.mem_singleton_self _)))
      refine ⟨a', ?_, h'.congr (by rw [around]; abel), hroot'.trans hroot⟩
      rw [Links.hang, above, if_neg hp]
      -- only one side of the parent is looked at, and what hangs on the other one is not `x`
      rcases Side.eq_or_eq_opp side f.side with rfl | rfl
      · simp [Links.child, hread, hstep]
      · simp [Links.child, hread, hstep, hother]

/-- **The rotation.** -/
theorem rotate {x y : ℕ} {kx ky : UInt32} {vx vy : α} {cx cy : Color}
    (h : Holds a.slots ({(0, .nil q)} + ({(x, .link side kx vx cx near y (above frames))} +
      ({(y, .link side ky vy cy t.number far x)} + (t.cells y + (around x frames + rest))))))
    (hroot : a.root = outermost x frames) :
    ∃ a', a.rotate side x = some a' ∧
      Holds a'.slots ({(0, .nil q)} + ({(x, .link side kx vx cx near t.number y)} +
        ({(y, .link side ky vy cy x far (above frames))} + (t.cells x + (around y frames + rest))))) ∧
      a'.root = outermost y frames := by
  have hy : y ≠ 0 := h.ne_zero (by simp)
  have hreadx : a.slots[x]? = some (.link side kx vx cx near y (above frames)) :=
    h.read (by simp)
  have hready : a.slots[y]? = some (.link side ky vy cy t.number far x) := h.read (by simp)
  -- the inner subtree goes over to `x`
  have h₀ : Holds a.slots ({(x, .link side kx vx cx near y (above frames))} +
      ({(0, .nil q)} + {(y, .link side ky vy cy t.number far x)} + t.cells y + around x frames +
        rest)) := h.congr (by abel)
  obtain ⟨a₁, hstep₁, h₁, hroot₁⟩ := h₀.setChild_opp t.number
  have h₁ : Holds a₁.slots ({(0, .nil q)} + t.cells y +
      ({(x, .link side kx vx cx near t.number (above frames))} +
        {(y, .link side ky vy cy t.number far x)} + around x frames + rest)) := h₁.congr (by abel)
  obtain ⟨a₂, hstep₂, h₂, hroot₂⟩ := h₁.adopt x
  -- `y` comes up below the parent of `x`
  have hparent : a₂.slots[x]? = some (.link side kx vx cx near t.number (above frames)) :=
    h₂.read (by simp)
  have h₂ : Holds a₂.slots ({(y, .link side ky vy cy t.number far x)} +
      ({(0, .nil q)} + t.cells x + {(x, .link side kx vx cx near t.number (above frames))} +
        around x frames + rest)) := h₂.congr (by abel)
  obtain ⟨a₃, hstep₃, h₃, hroot₃⟩ := h₂.setParent (above frames)
  have h₃ : Holds a₃.slots ({(0, .nil q)} + ({(x, .link side kx vx cx near t.number (above frames))} +
      (around x frames + ({(y, .link side ky vy cy t.number far (above frames))} + t.cells x +
        rest)))) := h₃.congr (by abel)
  obtain ⟨a₄, hstep₄, h₄, hroot₄⟩ := h₃.hang (by rw [hroot₃, hroot₂, hroot₁, hroot]) side y
  -- and takes `x` as its child
  have h₄ : Holds a₄.slots ({(y, .link side ky vy cy t.number far (above frames))} +
      ({(0, .nil q)} + t.cells x + {(x, .link side kx vx cx near t.number (above frames))} +
        around y frames + rest)) := h₄.congr (by abel)
  obtain ⟨a₅, hstep₅, h₅, hroot₅⟩ := h₄.setChild x
  have h₅ : Holds a₅.slots ({(x, .link side kx vx cx near t.number (above frames))} +
      ({(0, .nil q)} + t.cells x + {(y, .link side ky vy cy x far (above frames))} +
        around y frames + rest)) := h₅.congr (by abel)
  obtain ⟨a₆, hstep₆, h₆, hroot₆⟩ := h₅.setParent y
  refine ⟨a₆, ?_, h₆.congr (by abel), by rw [hroot₆, hroot₅, hroot₄]⟩
  simp [Links.rotate, Links.child, Links.parent, hreadx, hready, hy, hstep₁, hstep₂, hparent,
    hstep₃, hstep₄, hstep₅, hstep₆]

end Holds

/-! ## Trees in an arena -/

/-- The slots hold the tree, a sentinel with this parent, and other cells. -/
structure Shows (a : Links α) (q : ℕ) (t : Tree (ℕ × α)) (other : Multiset (ℕ × Slot α)) :
    Prop where
  cells : Holds a.slots ({(0, .nil q)} + t.cells 0 + other)
  root : a.root = t.number

namespace Shows

open RedBlack.Tree

variable {a : Links α} {q : ℕ} {f : Frame α} {frames : List (Frame α)} {t : Tree (ℕ × α)}
  {other : Multiset (ℕ × Slot α)} {side : Side} {c : Color} {near far : Tree (ℕ × α)} {k : UInt32}
  {e : ℕ × α}

/-- The tree is seen from one of its subtrees. -/
theorem plug_iff : Shows a q (plug frames t) other ↔
    Holds a.slots ({(0, .nil q)} + (t.cells (above frames) + around t.number frames) + other) ∧
      a.root = outermost t.number frames := by
  rw [← cells_plug, ← number_plug]
  exact ⟨fun h => ⟨h.cells, h.root⟩, fun h => ⟨h.1, h.2⟩⟩

/-- No loop that goes down through the tree, or up through the frames, runs out of turns. -/
theorem lt_turns (h : Shows a q (plug frames t) other) :
    2 * (t.size + frames.length) + 1 < a.turns := by
  have hcard := (plug_iff.mp h).1.card
  rw [Multiset.card_add, Multiset.card_add, Multiset.card_add, Multiset.card_singleton,
    card_cells] at hcard
  have := length_le_card_around frames t.number
  rw [Links.turns]
  omega

/-! ### Reading -/

/-- The slot of any node of the tree. -/
theorem read (h : Shows a q (plug frames (join side c near k e far)) other) :
    a.slots[e.1]? = some (.link side k e.2 c near.number far.number (above frames)) :=
  (plug_iff.mp h).1.read (by simp [cells_join])

/-- The slot of the sentinel. -/
theorem read_nil (h : Shows a q t other) : a.slots[0]? = some (.nil q) :=
  h.cells.read (by simp)

theorem child (h : Shows a q (plug frames (join side c near k e far)) other) :
    a.child side e.1 = some near.number := by
  simp [Links.child, h.read]

theorem child_opp (h : Shows a q (plug frames (join side c near k e far)) other) :
    a.child side.opp e.1 = some far.number := by
  simp [Links.child, h.read]

/-- The colour that is read is that of the tree; the sentinel is black. -/
theorem color (h : Shows a q (plug frames t) other) : a.color t.number = some t.color := by
  by_cases hleaf : t = leaf
  · subst hleaf
    simp [Links.color, h.read_nil]
  · obtain ⟨c, near, k, e, far, rfl⟩ := exists_join .left hleaf
    simp [Links.color, h.read]

/-- The way up, which begins at the sentinel for a leaf. -/
theorem parent (h : Shows a q (plug frames t) other) (hq : t = leaf → q = above frames) :
    a.parent t.number = some (above frames) := by
  by_cases hleaf : t = leaf
  · obtain rfl := hq hleaf
    subst hleaf
    simp [Links.parent, h.read_nil]
  · obtain ⟨c, near, k, e, far, rfl⟩ := exists_join .left hleaf
    simp [Links.parent, h.read]

/-- A node and what hangs on the other side of its parent have different numbers. -/
theorem number_other_ne (h : Shows a q (plug (f :: frames) t) other) (hne : t ≠ leaf ∨ f.other ≠ leaf) :
    f.other.number ≠ t.number := by
  have hcells := (plug_iff.mp h).1
  rw [around] at hcells
  by_cases hleaf : t = leaf
  · have hother : f.other ≠ leaf := hne.resolve_left (not_not.mpr hleaf)
    subst hleaf
    refine (hcells.congr (add_assoc _ _ _)).ne_zero ?_
    simp [number_mem_cells hother]
  · -- both trees have cells, and no number stands on two cells
    obtain ⟨c, near, k, e, far, rfl⟩ := exists_join .left hleaf
    rw [cells_join, number_join] at hcells
    rw [number_join]
    have hparts : Holds a.slots ({(0, .nil q)} +
        ({(e.1, .link .left k e.2 c near.number far.number f.entry.1)} + (f.other.cells f.entry.1 +
          ({(f.entry.1, .link f.side f.key f.entry.2 f.color e.1 f.other.number (above frames))} +
            (near.cells e.1 + far.cells e.1) + around f.entry.1 frames + other)))) :=
      hcells.congr (by rw [above]; abel)
    exact hparts.number_ne

/-- Which child a node is can be read off its parent. The parent is asked about one side first, so the
    answer must not be right for both. -/
theorem sideOf (h : Shows a q (plug (f :: frames) t) other) (hne : t ≠ leaf ∨ f.other ≠ leaf) :
    a.sideOf f.entry.1 t.number = some f.side := by
  have h' : Shows a q (plug frames (f.fill t)) other := h
  have hother := h.number_other_ne hne
  have hread := h'.read
  cases hside : f.side with
  | left => simp [Links.sideOf, Links.child, hread, hside, Slot.link, Slot.child]
  | right => simp [Links.sideOf, Links.child, hread, hside, Slot.link, Slot.child, hother]

/-- Below the root there is no root. -/
theorem number_ne_root (h : Shows a q (plug (f :: frames) t) other) : t.number ≠ a.root := by
  obtain ⟨hcells, hroot⟩ := plug_iff.mp h
  have hmem := outermost_mem_around f frames t.number
  -- the root is the outermost node of the frames, so its number is on a cell outside the tree
  rw [hroot]
  by_cases hleaf : t = leaf
  · subst hleaf
    refine ((hcells.congr (add_assoc _ _ _)).ne_zero ?_).symm
    rw [Multiset.map_add, Multiset.map_add]
    simp only [Multiset.mem_add]
    exact Or.inl (Or.inr hmem)
  · have hparts : Holds a.slots (t.cells (above (f :: frames)) +
        (around t.number (f :: frames) + ({(0, .nil q)} + other))) := hcells.congr (by abel)
    refine hparts.ne (number_mem_cells hleaf _) ?_
    rw [Multiset.map_add]
    exact Multiset.mem_add.mpr (Or.inl hmem)

/-! ### Changing -/

/-- A node is painted. A leaf may be painted black. -/
theorem paint (h : Shows a q (plug frames t) other) (c : Color) (hc : t = leaf → c = .black) :
    ∃ a', a.paint t.number c = some a' ∧ Shows a' q (plug frames (t.paint c)) other := by
  obtain ⟨hcells, hroot⟩ := plug_iff.mp h
  by_cases hleaf : t = leaf
  · -- painting the sentinel black leaves it as it is
    obtain rfl := hc hleaf
    subst hleaf
    obtain ⟨a', hstep, h', hroot'⟩ := (hcells.congr (add_assoc _ _ _)).update
      fun slot => { slot with color := .black }
    exact ⟨a', hstep, plug_iff.mpr ⟨h'.congr (add_assoc _ _ _).symm, hroot'.trans hroot⟩⟩
  · obtain ⟨c', near, k, e, far, rfl⟩ := exists_join .left hleaf
    rw [cells_join, number_join] at hcells
    have hnode : Holds a.slots ({(e.1, .link .left k e.2 c' near.number far.number (above frames))} +
        ({(0, .nil q)} + (near.cells e.1 + far.cells e.1) + around e.1 frames + other)) :=
      hcells.congr (by abel)
    obtain ⟨a', hstep, h', hroot'⟩ := hnode.paint c
    rw [number_join, paint_join]
    refine ⟨a', hstep, plug_iff.mpr ⟨h'.congr ?_, ?_⟩⟩
    · rw [cells_join, number_join]
      abel
    · rw [hroot', hroot, number_join, number_join]

/-- **A rotation turns a node of the tree**, wherever it is, and leaves everything else. -/
theorem rotate {cx cy : Color} {kx ky : UInt32} {x y : ℕ × α} {inner : Tree (ℕ × α)}
    (h : Shows a q (plug frames (join side cx near kx x (join side cy inner ky y far))) other) :
    ∃ a', a.rotate side x.1 = some a' ∧
      Shows a' q (plug frames (join side cy (join side cx near kx x inner) ky y far)) other := by
  obtain ⟨hcells, hroot⟩ := plug_iff.mp h
  rw [cells_join, cells_join, number_join, number_join] at hcells
  rw [number_join] at hroot
  have hparts : Holds a.slots ({(0, .nil q)} +
      ({(x.1, .link side kx x.2 cx near.number y.1 (above frames))} +
        ({(y.1, .link side ky y.2 cy inner.number far.number x.1)} + (inner.cells y.1 +
          (around x.1 frames + (near.cells x.1 + far.cells y.1 + other)))))) :=
    hcells.congr (by abel)
  obtain ⟨a', hstep, h', hroot'⟩ := hparts.rotate hroot
  refine ⟨a', hstep, plug_iff.mpr ⟨h'.congr ?_, ?_⟩⟩
  · -- the same cells, counted in the order of the tree after the turn
    rw [cells_join, cells_join, number_join, number_join]
    abel
  · rw [hroot', number_join]

end Shows

end GossipRing.RedBlack
