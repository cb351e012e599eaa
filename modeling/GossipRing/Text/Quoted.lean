/-!
# Quoted text

A text inside an error message stands between double quotes. The quote, the backslash, tab, line
feed, carriage return and the null character have short escapes; every other character without a
visible form is written as its code point in hexadecimal between braces.
-/

namespace GossipRing.Text

/-- The ranges of code points without a visible form: controls, format characters, separators
other than the space, private use, and the code points that never become characters. -/
def invisibleRanges : List (Nat × Nat) :=
  [(0x00, 0x1F), (0x7F, 0xA0), (0xAD, 0xAD), (0x600, 0x605), (0x61C, 0x61C), (0x6DD, 0x6DD),
   (0x70F, 0x70F), (0x890, 0x891), (0x8E2, 0x8E2), (0x1680, 0x1680), (0x180E, 0x180E),
   (0x2000, 0x200F), (0x2028, 0x202F), (0x205F, 0x206F), (0x3000, 0x3000), (0xE000, 0xF8FF),
   (0xFDD0, 0xFDEF), (0xFEFF, 0xFEFF), (0xFFF9, 0xFFFB), (0x110BD, 0x110BD),
   (0x110CD, 0x110CD), (0x13430, 0x1343F), (0x1BCA0, 0x1BCA3), (0x1D173, 0x1D17A),
   (0xE0001, 0xE0001), (0xE0020, 0xE007F), (0xF0000, 0x10FFFF)]

/-- Whether a character has no visible form. The last two code points of every plane are never
characters. -/
def isInvisible (c : Char) : Bool :=
  c.toNat % 0x10000 ≥ 0xFFFE ||
    invisibleRanges.any fun range => range.1 ≤ c.toNat && c.toNat ≤ range.2

/-- A character as it stands inside quotes. -/
def escape (c : Char) : List Char :=
  match c with
  | '"' => ['\\', '"']
  | '\\' => ['\\', '\\']
  | '\t' => ['\\', 't']
  | '\n' => ['\\', 'n']
  | '\r' => ['\\', 'r']
  | '\x00' => ['\\', '0']
  | c =>
    if isInvisible c then ['\\', 'u', '\x7b'] ++ Nat.toDigits 16 c.toNat ++ ['\x7d'] else [c]

/-- A text between double quotes. -/
def quoted (s : String) : String :=
  "\"" ++ String.ofList (s.toList.flatMap escape) ++ "\""

end GossipRing.Text
