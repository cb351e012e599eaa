import GossipRing.Error
import GossipRing.Settings
import GossipRing.Wire.Scalar

/-!
# Settings on the wire

A duration is written in milliseconds, of which there is room for 64 bits.

* **`Settings.overlay?`** — settings with the values of some fields replaced.
* **`Settings.merge`** — the same for a patch from outside: every field of the patch must be known
  and the outcome must be settings that a node accepts.
-/

namespace GossipRing

namespace Wire

/-- A duration is written in milliseconds. -/
def ofDuration (d : Duration) : Json := ofWord64 d.millis

def duration? (j : Json) : Option Duration := (word64? j).map .ofMillis

/-- What comes back of a duration. -/
@[simp] theorem duration?_ofDuration (d : Duration) : duration? (ofDuration d) = some d.written := by
  rw [duration?, ofDuration, word64?_ofWord64, Option.map_some, Duration.written]

end Wire

namespace Settings

open Wire

/-- The fields of settings by name, in the order of the record. -/
def toFields (s : Settings) : List (String × Json) :=
  [("app", .str s.app),
   ("replicaPoints", ofWord64 s.replicaPoints),
   ("maxPiggybackCount", ofWord32 s.maxPiggybackCount),
   ("suspicionTimeout", ofDuration s.suspicionTimeout),
   ("pingTimeout", ofDuration s.pingTimeout),
   ("pingReqTimeout", ofDuration s.pingReqTimeout),
   ("pingReqSize", ofWord64 s.pingReqSize),
   ("protocolPeriod", ofDuration s.protocolPeriod),
   ("joinSize", ofWord64 s.joinSize),
   ("maxJoinDuration", ofDuration s.maxJoinDuration),
   ("joinTimeout", ofDuration s.joinTimeout),
   ("joinDelay", ofDuration s.joinDelay),
   ("maxJoinDelay", ofDuration s.maxJoinDelay)]

def fieldNames : List String := default.toFields.map Prod.fst

def toJson (s : Settings) : Json := .obj s.toFields

def ofJson? (j : Json) : Option Settings := do
  match ← j.components fieldNames with
  | [app, replicaPoints, maxPiggybackCount, suspicionTimeout, pingTimeout, pingReqTimeout,
      pingReqSize, protocolPeriod, joinSize, maxJoinDuration, joinTimeout, joinDelay,
      maxJoinDelay] =>
    some
      { app := ← required text? app
        replicaPoints := ← required word64? replicaPoints
        maxPiggybackCount := ← required word32? maxPiggybackCount
        suspicionTimeout := ← required duration? suspicionTimeout
        pingTimeout := ← required duration? pingTimeout
        pingReqTimeout := ← required duration? pingReqTimeout
        pingReqSize := ← required word64? pingReqSize
        protocolPeriod := ← required duration? protocolPeriod
        joinSize := ← required word64? joinSize
        maxJoinDuration := ← required duration? maxJoinDuration
        joinTimeout := ← required duration? joinTimeout
        joinDelay := ← required duration? joinDelay
        maxJoinDelay := ← required duration? maxJoinDelay }
  | _ => none

/-- The settings, or what is wrong with them. -/
def validate (s : Settings) : Except NodeError Settings :=
  match s.fault? with
  | some reason => .error (.invalidConfig reason)
  | none => .ok s

/-- The settings with the values that `fields` gives for some of them; names that no setting has
are passed over. -/
def overlay? (s : Settings) (fields : List (String × Json)) : Option Settings :=
  ofJson? (.obj (s.toFields.map fun (name, value) =>
    (name, (Json.lookup name fields).getD value)))

/-- The first field name in ascending order that no setting has. -/
def unknownField? (fields : List (String × Json)) : Option String :=
  (((fields.map Prod.fst).filter fun name => !fieldNames.contains name).mergeSort
    fun a b => decide (a ≤ b)).head?

/-- The settings with the values of a patch. An unknown field is reported before any value is
read. -/
def merge (s : Settings) (patch : Json) : Except NodeError Settings :=
  match patch with
  | .obj fields =>
    match unknownField? fields with
    | some name => .error (.unknownConfigKey name)
    | none =>
      match s.overlay? fields with
      | some merged => merged.validate
      | none => .error .badBody
  | _ => .error (.invalidConfig "expected an object")

end Settings

end GossipRing
