import GossipRing.Membership

/-!
# The order of probing

A node probes the members of its table one after the other in a drawn order, and draws a new order
after each full pass, so every member is probed once per pass. An order is a list of addresses
taken from the table when it was drawn; by the time its turn comes, a member may have become one
that is not probed, and is passed over.
-/

namespace GossipRing

/-- What is left of the current pass. -/
structure Rotation where
  order : List String
  deriving DecidableEq, Inhabited, Repr

namespace Rotation

/-- Before the first pass. -/
def empty : Rotation := ⟨[]⟩

/-- The first address of an order whose member may be probed, with what follows it. -/
def scan (m : Membership) : List String → Option (Member × List String)
  | [] => none
  | address :: rest =>
    match m.row? address with
    | some row => if m.isPingable row then some (row, rest) else scan m rest
    | none => scan m rest

/-- A new pass over all addresses of the table. -/
def draw (m : Membership) (chance : Chance) : List String × Chance :=
  Chance.shuffle (m.rows.map Member.address) chance

/-- The next member to probe: from the current pass, or else from a new one. If there is nobody to
probe, another new pass is ready for the next time. -/
def next (r : Rotation) (m : Membership) (chance : Chance) : Option Member × Rotation × Chance :=
  match scan m r.order with
  | some (row, rest) => (some row, ⟨rest⟩, chance)
  | none =>
    let (order, chance) := draw m chance
    match scan m order with
    | some (row, rest) => (some row, ⟨rest⟩, chance)
    | none =>
      let (order, chance) := draw m chance
      (none, ⟨order⟩, chance)

end Rotation

end GossipRing
