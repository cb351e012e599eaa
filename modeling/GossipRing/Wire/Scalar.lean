import GossipRing.Json.Value

/-!
# Words, texts and fields on the wire

The parts that records are made of. A word is a JSON integer within its range; nothing else that
looks like a number is read as one. A missing field is an error unless the record gives it a
default, and a default never stands in for a field that is there but cannot be read.
-/

namespace GossipRing.Wire

def ofWord64 (n : UInt64) : Json := .int n.toNat

def ofWord32 (n : UInt32) : Json := .int n.toNat

def word64? : Json → Option UInt64
  | .int n => if 0 ≤ n ∧ n < UInt64.size then some (UInt64.ofNat n.toNat) else none
  | _ => none

def word32? : Json → Option UInt32
  | .int n => if 0 ≤ n ∧ n < UInt32.size then some (UInt32.ofNat n.toNat) else none
  | _ => none

def text? : Json → Option String
  | .str s => some s
  | _ => none

def flag? : Json → Option Bool
  | .bool b => some b
  | _ => none

/-- A checksum that may be unknown. -/
def ofChecksum : Option UInt32 → Json
  | some c => ofWord32 c
  | none => .null

def checksum? : Json → Option (Option UInt32)
  | .null => some none
  | other => (word32? other).map some

/-- An array whose items can all be read. -/
def list? {α : Type} (item? : Json → Option α) : Json → Option (List α)
  | .arr items => items.mapM item?
  | _ => none

/-- A field that must be there. -/
def required {α : Type} (read : Json → Option α) : Option Json → Option α
  | some value => read value
  | none => none

/-- A field that may be missing. -/
def orDefault {α : Type} (default : α) (read : Json → Option α) : Option Json → Option α
  | some value => read value
  | none => some default

/-- The name of a case without data: its text, or an object with the name alone and `null`. -/
def caseName? : Json → Option String
  | .str name => some name
  | .obj [(name, .null)] => some name
  | _ => none

@[simp] theorem word64?_ofWord64 (n : UInt64) : word64? (ofWord64 n) = some n := by
  have h := n.toNat_lt_size
  simp only [word64?, ofWord64, Int.toNat_natCast, UInt64.ofNat_toNat]
  rw [if_pos (by omega)]

@[simp] theorem word32?_ofWord32 (n : UInt32) : word32? (ofWord32 n) = some n := by
  have h := n.toNat_lt_size
  simp only [word32?, ofWord32, Int.toNat_natCast, UInt32.ofNat_toNat]
  rw [if_pos (by omega)]

@[simp] theorem checksum?_ofChecksum (c : Option UInt32) : checksum? (ofChecksum c) = some c := by
  cases c with
  | none => rfl
  | some n =>
    have h := word32?_ofWord32 n
    simp only [ofWord32] at h
    simp [checksum?, ofChecksum, ofWord32, h]

end GossipRing.Wire
