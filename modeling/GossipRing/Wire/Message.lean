import GossipRing.Message
import GossipRing.Wire.Member

/-!
# Messages on the wire

The claims inside a message are read leniently, see `Change.lenientList?`.
-/

namespace GossipRing

open Wire

namespace JoinRequest

def fieldNames : List String := ["app", "source", "incarnationNumber"]

def toJson (r : JoinRequest) : Json :=
  .obj [("app", .str r.app), ("source", .str r.source),
    ("incarnationNumber", ofWord64 r.incarnation)]

def ofJson? (j : Json) : Option JoinRequest := do
  match ← j.components fieldNames with
  | [app, source, incarnation] =>
    some
      { app := ← required text? app
        source := ← required text? source
        incarnation := ← required word64? incarnation }
  | _ => none

end JoinRequest

namespace JoinResponse

def fieldNames : List String := ["app", "coordinator", "membership", "membershipChecksum"]

def toJson (r : JoinResponse) : Json :=
  .obj [("app", .str r.app), ("coordinator", .str r.coordinator),
    ("membership", Change.listToJson r.membership),
    ("membershipChecksum", ofChecksum r.checksum)]

def ofJson? (j : Json) : Option JoinResponse := do
  match ← j.components fieldNames with
  | [app, coordinator, membership, checksum] =>
    some
      { app := ← required text? app
        coordinator := ← required text? coordinator
        membership := ← required Change.lenientList? membership
        checksum := ← orDefault none checksum? checksum }
  | _ => none

end JoinResponse

namespace PingRequest

def fieldNames : List String := ["checksum", "changes", "source", "sourceIncarnationNumber"]

def toJson (r : PingRequest) : Json :=
  .obj [("checksum", ofChecksum r.checksum), ("changes", Change.listToJson r.changes),
    ("source", .str r.source), ("sourceIncarnationNumber", ofWord64 r.sourceIncarnation)]

def ofJson? (j : Json) : Option PingRequest := do
  match ← j.components fieldNames with
  | [checksum, changes, source, sourceIncarnation] =>
    some
      { checksum := ← orDefault none checksum? checksum
        changes := ← orDefault [] Change.lenientList? changes
        source := ← required text? source
        sourceIncarnation := ← orDefault 0 word64? sourceIncarnation }
  | _ => none

end PingRequest

namespace PingResponse

def fieldNames : List String := ["changes", "pingStatus"]

def toJson (r : PingResponse) : Json :=
  .obj [("changes", Change.listToJson r.changes), ("pingStatus", .bool r.status)]

def ofJson? (j : Json) : Option PingResponse := do
  match ← j.components fieldNames with
  | [changes, status] =>
    some
      { changes := ← orDefault [] Change.lenientList? changes
        status := ← orDefault false flag? status }
  | _ => none

end PingResponse

namespace PingReqRequest

def fieldNames : List String :=
  ["checksum", "changes", "source", "sourceIncarnationNumber", "target"]

def toJson (r : PingReqRequest) : Json :=
  .obj [("checksum", ofChecksum r.checksum), ("changes", Change.listToJson r.changes),
    ("source", .str r.source), ("sourceIncarnationNumber", ofWord64 r.sourceIncarnation),
    ("target", .str r.target)]

def ofJson? (j : Json) : Option PingReqRequest := do
  match ← j.components fieldNames with
  | [checksum, changes, source, sourceIncarnation, target] =>
    some
      { checksum := ← orDefault none checksum? checksum
        changes := ← orDefault [] Change.lenientList? changes
        source := ← required text? source
        sourceIncarnation := ← orDefault 0 word64? sourceIncarnation
        target := ← required text? target }
  | _ => none

end PingReqRequest

namespace PingReqResponse

def fieldNames : List String := ["changes", "pingStatus", "target"]

def toJson (r : PingReqResponse) : Json :=
  .obj [("changes", Change.listToJson r.changes), ("pingStatus", .bool r.status),
    ("target", .str r.target)]

def ofJson? (j : Json) : Option PingReqResponse := do
  match ← j.components fieldNames with
  | [changes, status, target] =>
    some
      { changes := ← orDefault [] Change.lenientList? changes
        status := ← required flag? status
        target := ← orDefault "" text? target }
  | _ => none

end PingReqResponse

end GossipRing
