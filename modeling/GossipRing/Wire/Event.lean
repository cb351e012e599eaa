import GossipRing.Membership
import GossipRing.Ring
import GossipRing.Wire.Member

/-!
# Events and bodies as they are shown

What a table and a ring report, as JSON. A table keeps its rows in a drawn order, so a body that
is to be compared with another is shown with its claims in order of address.
-/

namespace GossipRing

open Wire

def MembershipEvent.toJson : MembershipEvent → Json
  | .updated changes => .obj [("type", .str "updated"), ("changes", Change.listToJson changes)]
  | .adopted changes => .obj [("type", .str "set"), ("changes", Change.listToJson changes)]
  | .checksumComputed checksum old =>
    .obj [("type", .str "checksumComputed"), ("checksum", ofWord32 checksum),
      ("old", ofChecksum old)]

def RingEvent.toJson : RingEvent → Json
  | .added server => .obj [("type", .str "added"), ("server", .str server)]
  | .removed server => .obj [("type", .str "removed"), ("server", .str server)]
  | .checksumComputed checksum old =>
    .obj [("type", .str "checksumComputed"), ("checksum", ofWord32 checksum),
      ("old", ofChecksum old)]
  | .changed joined gone =>
    .obj [("type", .str "ringChanged"), ("added", .arr (joined.map Json.str)),
      ("removed", .arr (gone.map Json.str))]

namespace Json

/-- The address a claim is about, empty if it is none. -/
def claimAddress (claim : Json) : String :=
  match claim.field? "address" with
  | some (.str address) => address
  | _ => ""

/-- The items of an array in ascending order of the addresses they are about. -/
def claimsByAddress : Json → Json
  | .arr items => .arr (items.mergeSort fun a b => decide (a.claimAddress ≤ b.claimAddress))
  | other => other

/-- A body with the claims it holds in order of address. -/
def shown : Json → Json
  | .obj fields =>
    .obj (fields.map fun (name, value) =>
      (name, if name = "changes" ∨ name = "membership" then value.claimsByAddress else value))
  | other => other

end Json

end GossipRing
