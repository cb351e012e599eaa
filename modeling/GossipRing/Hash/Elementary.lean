import GossipRing.Hash.Wyhash

/-!
# Elementary hashes

Hashes whose values are known at sight. They collide on purpose, or place a text at a chosen
position of the ring.
-/

namespace GossipRing.Hash

/-- Every text at one position. -/
def constant (position : UInt32) : HashFunction := fun _ => position

/-- The number of bytes. -/
def length : HashFunction := fun text => UInt32.ofNat text.utf8ByteSize

/-- The sum of the bytes. -/
def sum : HashFunction := fun text =>
  text.toUTF8.toList.foldl (fun total byte => total + byte.toUInt32) 0

def isLetter (c : Char) : Bool :=
  ('a' ≤ c && c ≤ 'z') || ('A' ≤ c && c ≤ 'Z')

/-- The number behind a text's leading letters, or zero if no 32-bit number stands there alone. -/
def digits : HashFunction := fun text =>
  let rest := text.toList.dropWhile isLetter
  if rest.isEmpty || rest.any (fun c => !c.isDigit) then 0
  else
    let value := rest.foldl (fun n c => n * 10 + (c.toNat - '0'.toNat)) 0
    if value < UInt32.size then UInt32.ofNat value else 0

end GossipRing.Hash
