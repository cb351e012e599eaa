/-!
# Members and claims about them

* **`Status`** — what a member is taken to be, from alive to reaped.
* **`Member`** — one row of a membership table: an address, a status, an incarnation.
* **`Change`** — a claim that some member has a status at an incarnation, as it is applied and
  passed on. It says who made it and when.

Incarnations and time stamps are 64-bit words; a time stamp counts milliseconds since 1970.
-/

namespace GossipRing

/-- What a member is taken to be. -/
inductive Status where
  | alive
  | suspect
  | faulty
  | leave
  | tombstone
  deriving DecidableEq, Inhabited, Repr

namespace Status

/-- The name of a status on the wire and in checksums. -/
def name : Status → String
  | alive => "alive"
  | suspect => "suspect"
  | faulty => "faulty"
  | leave => "leave"
  | tombstone => "tombstone"

/-- Only alive and suspect members are probed and own positions on the ring. -/
def isPingable : Status → Bool
  | alive => true
  | suspect => true
  | _ => false

/-- How bad a status is: between claims of one incarnation the worse one wins. -/
def rank : Status → Nat
  | alive => 0
  | suspect => 1
  | faulty => 2
  | leave => 3
  | tombstone => 4

end Status

/-- One row of a membership table. -/
structure Member where
  address : String
  status : Status
  incarnation : UInt64
  deriving DecidableEq, Inhabited, Repr

namespace Member

/-- What the member adds to the checksum of a table. -/
def checksumText (m : Member) : String :=
  m.address ++ m.status.name ++ toString m.incarnation.toNat

/-- Rows in ascending order of their addresses. -/
def byAddress (rows : List Member) : List Member :=
  rows.mergeSort fun a b => decide (a.address ≤ b.address)

end Member

/-- Among entries about members, at most one about each, a new one takes the place of the one about its
member. -/
theorem nodup_map_replaced {α : Type} {address : α → String} {entries : List α}
    (h : (entries.map address).Nodup) (new : α) :
    ((entries.filter (fun e => address e ≠ address new) ++ [new]).map address).Nodup := by
  have hothers : ((entries.filter fun e => address e ≠ address new).map address).Nodup :=
    h.sublist (List.filter_sublist.map address)
  rw [List.map_append, List.nodup_append]
  refine ⟨hothers, List.pairwise_singleton _ _, ?_⟩
  intro a ha b hb
  obtain ⟨e, he, rfl⟩ := List.mem_map.mp ha
  rw [List.mem_singleton.mp hb]
  exact of_decide_eq_true (List.mem_filter.mp he).2

/-- A claim about one member. -/
structure Change where
  address : String
  status : Status
  incarnation : UInt64
  /-- The address of the node that made the claim. -/
  source : String
  /-- The incarnation of that node when it made the claim. -/
  sourceIncarnation : UInt64
  timestamp : UInt64
  deriving DecidableEq, Inhabited, Repr

namespace Change

/-- The claim that a member is as its row says. -/
def ofMember (m : Member) (source : String) (sourceIncarnation now : UInt64) : Change where
  address := m.address
  status := m.status
  incarnation := m.incarnation
  source := source
  sourceIncarnation := sourceIncarnation
  timestamp := now

/-- The row that the claim asks for. -/
def toMember (c : Change) : Member where
  address := c.address
  status := c.status
  incarnation := c.incarnation

/-- A claim about nobody. -/
def isMalformed (c : Change) : Bool := c.address.isEmpty

/-- Claims in ascending order of the addresses they are about, those about one in their order. -/
def byAddress (changes : List Change) : List Change :=
  changes.mergeSort fun a b => decide (a.address ≤ b.address)

@[simp] theorem toMember_ofMember (m : Member) (source : String) (inc now : UInt64) :
    (ofMember m source inc now).toMember = m := rfl

end Change

end GossipRing
