import GossipRing.Json.Value

/-!
# Writing JSON text

The text of a value on one line without blanks. Inside a string the quote, the backslash and the
control characters are escaped and all else stands as it is, so what is written reads back as the
same value.
-/

namespace GossipRing.Json.Writer

def hexDigit (n : Nat) : Char :=
  if n < 10 then Char.ofNat ('0'.toNat + n) else Char.ofNat ('a'.toNat + n - 10)

/-- A character as it stands inside a string. -/
def escape (c : Char) : List Char :=
  if c = '"' then ['\\', '"']
  else if c = '\\' then ['\\', '\\']
  else if c.toNat < 0x20 then
    ['\\', 'u', '0', '0', hexDigit (c.toNat / 16), hexDigit (c.toNat % 16)]
  else [c]

def quoted (s : String) : String :=
  "\"" ++ String.ofList (s.toList.flatMap escape) ++ "\""

mutual

/-- The text of a value. -/
def value : Json → String
  | .null => "null"
  | .bool true => "true"
  | .bool false => "false"
  | .int n => toString n
  | .decimal literal => literal
  | .str s => quoted s
  | .arr items => "[" ++ String.intercalate "," (values items) ++ "]"
  | .obj fields => "\x7b" ++ String.intercalate "," (members fields) ++ "\x7d"

def values : List Json → List String
  | [] => []
  | item :: rest => value item :: values rest

def members : List (String × Json) → List String
  | [] => []
  | (name, item) :: rest => (quoted name ++ ":" ++ value item) :: members rest

end

end GossipRing.Json.Writer

namespace GossipRing.Json

/-- The text of a value, on one line. -/
def render (json : Json) : String := Writer.value json

end GossipRing.Json
