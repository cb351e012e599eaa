import GossipRing.Json.Value

/-!
# Reading JSON text

A reader for one JSON value, by recursive descent over the characters. Every reader takes the
characters that are left and returns what it read with the rest. A nested value is read with less
fuel, and a text of `n` characters nests no deeper than `n`, so `Json.parse` never runs out.
-/

namespace GossipRing.Json.Reader

/-- The blanks that may stand between two tokens. -/
def isBlank (c : Char) : Bool :=
  c = ' ' || c = '\t' || c = '\n' || c = '\r'

def skipBlanks (cs : List Char) : List Char := cs.dropWhile isBlank

/-- The rest after a fixed word. -/
def word : List Char → List Char → Option (List Char)
  | [], rest => some rest
  | c :: w, d :: rest => if c = d then word w rest else none
  | _ :: _, [] => none

def hexDigit? (c : Char) : Option Nat :=
  if '0' ≤ c ∧ c ≤ '9' then some (c.toNat - '0'.toNat)
  else if 'a' ≤ c ∧ c ≤ 'f' then some (c.toNat - 'a'.toNat + 10)
  else if 'A' ≤ c ∧ c ≤ 'F' then some (c.toNat - 'A'.toNat + 10)
  else none

/-- Four hexadecimal digits. -/
def hexQuad : List Char → Option (Nat × List Char)
  | a :: b :: c :: d :: rest => do
    let a ← hexDigit? a
    let b ← hexDigit? b
    let c ← hexDigit? c
    let d ← hexDigit? d
    some (((a * 16 + b) * 16 + c) * 16 + d, rest)
  | _ => none

/-- The character behind `\u`: one unit, or a high and a low surrogate. -/
def escapedUnit (cs : List Char) : Option (Char × List Char) := do
  let (unit, rest) ← hexQuad cs
  if 0xD800 ≤ unit ∧ unit < 0xDC00 then
    match rest with
    | '\\' :: 'u' :: more =>
      let (low, rest) ← hexQuad more
      if 0xDC00 ≤ low ∧ low < 0xE000 then
        some (Char.ofNat (0x10000 + (unit - 0xD800) * 0x400 + (low - 0xDC00)), rest)
      else none
    | _ => none
  else if 0xDC00 ≤ unit ∧ unit < 0xE000 then none
  else some (Char.ofNat unit, rest)

/-- The characters of a string up to its closing quote, which is consumed. -/
def stringTail : Nat → List Char → List Char → Option (String × List Char)
  | 0, _, _ => none
  | _ + 1, acc, '"' :: rest => some (String.ofList acc.reverse, rest)
  | fuel + 1, acc, '\\' :: 'u' :: rest => do
    let (c, rest) ← escapedUnit rest
    stringTail fuel (c :: acc) rest
  | fuel + 1, acc, '\\' :: e :: rest =>
    match e with
    | '"' => stringTail fuel ('"' :: acc) rest
    | '\\' => stringTail fuel ('\\' :: acc) rest
    | '/' => stringTail fuel ('/' :: acc) rest
    | 'b' => stringTail fuel ('\x08' :: acc) rest
    | 'f' => stringTail fuel ('\x0c' :: acc) rest
    | 'n' => stringTail fuel ('\n' :: acc) rest
    | 'r' => stringTail fuel ('\r' :: acc) rest
    | 't' => stringTail fuel ('\t' :: acc) rest
    | _ => none
  | fuel + 1, acc, c :: rest => if c.toNat < 0x20 then none else stringTail fuel (c :: acc) rest
  | _ + 1, _, [] => none

/-- The value of a run of decimal digits. -/
def digitsValue (digits : List Char) : Nat :=
  digits.foldl (fun n c => n * 10 + (c.toNat - '0'.toNat)) 0

/-- The part of a number behind its whole part: a fraction and an exponent, either of which may
be missing. -/
def numberTail (cs : List Char) : Option (List Char × List Char) := do
  let (fraction, cs) ←
    match cs with
    | '.' :: more =>
      let digits := more.takeWhile Char.isDigit
      if digits.isEmpty then none else some ('.' :: digits, more.dropWhile Char.isDigit)
    | _ => some ([], cs)
  let (exponent, cs) ←
    match cs with
    | e :: more =>
      if e = 'e' ∨ e = 'E' then
        let (sign, more) :=
          match more with
          | '+' :: m => (['+'], m)
          | '-' :: m => (['-'], m)
          | m => ([], m)
        let digits := more.takeWhile Char.isDigit
        if digits.isEmpty then none
        else some (e :: (sign ++ digits), more.dropWhile Char.isDigit)
      else some ([], cs)
    | [] => some ([], [])
  some (fraction ++ exponent, cs)

/-- A number, which starts with a sign or a digit. A whole part has no leading zero. -/
def number (cs : List Char) : Option (Json × List Char) := do
  let (negative, cs) :=
    match cs with
    | '-' :: more => (true, more)
    | _ => (false, cs)
  let digits := cs.takeWhile Char.isDigit
  let rest := cs.dropWhile Char.isDigit
  if digits.isEmpty then none
  else if digits.length > 1 ∧ digits.head? = some '0' then none
  else do
    let (tail, rest) ← numberTail rest
    let sign := if negative then ['-'] else []
    let value := digitsValue digits
    if tail.isEmpty ∧ ¬(negative = true ∧ value = 0) then
      some (.int (if negative then -(value : Int) else value), rest)
    else some (.decimal (String.ofList (sign ++ digits ++ tail)), rest)

mutual

/-- One value, after blanks. -/
def value : Nat → List Char → Option (Json × List Char)
  | 0, _ => none
  | fuel + 1, cs =>
    match skipBlanks cs with
    | 'n' :: rest => (word ['u', 'l', 'l'] rest).map (Json.null, ·)
    | 't' :: rest => (word ['r', 'u', 'e'] rest).map (Json.bool true, ·)
    | 'f' :: rest => (word ['a', 'l', 's', 'e'] rest).map (Json.bool false, ·)
    | '"' :: rest => (stringTail (rest.length + 1) [] rest).map fun (s, rest) => (.str s, rest)
    | '[' :: rest =>
      match skipBlanks rest with
      | ']' :: rest => some (.arr [], rest)
      | _ => (items fuel rest).map fun (xs, rest) => (.arr xs, rest)
    | '\x7b' :: rest =>
      match skipBlanks rest with
      | '\x7d' :: rest => some (.obj [], rest)
      | _ => (fields fuel rest).map fun (xs, rest) => (Json.object xs, rest)
    | cs => number cs

/-- The items of an array up to its closing bracket. -/
def items : Nat → List Char → Option (List Json × List Char)
  | 0, _ => none
  | fuel + 1, cs => do
    let (head, rest) ← value fuel cs
    match skipBlanks rest with
    | ',' :: rest =>
      let (tail, rest) ← items fuel rest
      some (head :: tail, rest)
    | ']' :: rest => some ([head], rest)
    | _ => none

/-- The fields of an object up to its closing brace. -/
def fields : Nat → List Char → Option ((List (String × Json)) × List Char)
  | 0, _ => none
  | fuel + 1, cs =>
    match skipBlanks cs with
    | '"' :: rest => do
      let (name, rest) ← stringTail (rest.length + 1) [] rest
      match skipBlanks rest with
      | ':' :: rest =>
        let (head, rest) ← value fuel rest
        match skipBlanks rest with
        | ',' :: rest =>
          let (tail, rest) ← fields fuel rest
          some ((name, head) :: tail, rest)
        | '\x7d' :: rest => some ([(name, head)], rest)
        | _ => none
      | _ => none
    | _ => none

end

end GossipRing.Json.Reader

namespace GossipRing.Json

/-- The value that a text denotes, if the text is one JSON value and nothing else. -/
def parse (text : String) : Option Json :=
  let cs := text.toList
  match Reader.value (cs.length + 1) cs with
  | some (value, rest) => if (Reader.skipBlanks rest).isEmpty then some value else none
  | none => none

end GossipRing.Json
