import GossipRing.Snapshot
import GossipRing.Wire.Scalar

/-!
# Members, claims and snapshots on the wire

Each type has a `toJson` and an `ofJson?`. A list of claims inside a message is read leniently:
what is no claim, or is a claim about nobody, is left out. Everywhere else one bad claim spoils
the list.
-/

namespace GossipRing

open Wire

namespace Status

def toJson (s : Status) : Json := .str s.name

/-- The status with this name. -/
def ofName? (name : String) : Option Status :=
  [alive, suspect, faulty, leave, tombstone].find? fun s => s.name = name

def ofJson? (j : Json) : Option Status := (caseName? j).bind ofName?

end Status

namespace Member

def fieldNames : List String := ["address", "status", "incarnationNumber"]

def toJson (m : Member) : Json :=
  .obj [("address", .str m.address), ("status", m.status.toJson),
    ("incarnationNumber", ofWord64 m.incarnation)]

def ofJson? (j : Json) : Option Member := do
  match ← j.components fieldNames with
  | [address, status, incarnation] =>
    some
      { address := ← required text? address
        status := ← required Status.ofJson? status
        incarnation := ← required word64? incarnation }
  | _ => none

end Member

namespace Change

def fieldNames : List String :=
  ["address", "status", "incarnationNumber", "source", "sourceIncarnationNumber", "timestamp"]

def toJson (c : Change) : Json :=
  .obj [("address", .str c.address), ("status", c.status.toJson),
    ("incarnationNumber", ofWord64 c.incarnation), ("source", .str c.source),
    ("sourceIncarnationNumber", ofWord64 c.sourceIncarnation),
    ("timestamp", ofWord64 c.timestamp)]

def ofJson? (j : Json) : Option Change := do
  match ← j.components fieldNames with
  | [address, status, incarnation, source, sourceIncarnation, timestamp] =>
    some
      { address := ← required text? address
        status := ← required Status.ofJson? status
        incarnation := ← required word64? incarnation
        source := ← orDefault "" text? source
        sourceIncarnation := ← orDefault 0 word64? sourceIncarnation
        timestamp := ← orDefault 0 word64? timestamp }
  | _ => none

def listToJson (changes : List Change) : Json := .arr (changes.map toJson)

/-- A list of claims, all of which can be read. -/
def list? (j : Json) : Option (List Change) := Wire.list? ofJson? j

/-- Those items of an array that are claims about somebody. -/
def lenientList? : Json → Option (List Change)
  | .arr items => some ((items.filterMap ofJson?).filter fun c => !c.isMalformed)
  | _ => none

end Change

namespace Snapshot

def fieldNames : List String := ["checksum", "members"]

def toJson (s : Snapshot) : Json :=
  .obj [("checksum", ofChecksum s.checksum), ("members", Change.listToJson s.members)]

def ofJson? (j : Json) : Option Snapshot := do
  match ← j.components fieldNames with
  | [checksum, members] =>
    some
      { checksum := ← orDefault none checksum? checksum
        members := ← required Change.list? members }
  | _ => none

end Snapshot

end GossipRing
