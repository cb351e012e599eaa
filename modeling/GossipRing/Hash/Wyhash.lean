/-!
# The default hash

The 64-bit wyhash of a text's UTF-8 bytes with seed zero, of which the ring and the checksums
use the low 32 bits. Bytes are taken in blocks of 32; a last block of 1 to 31 bytes is mixed in by
a rule of its own for each of its four lengths of whole 8-byte words.
-/

namespace GossipRing.Wyhash

def p0 : UInt64 := 0xa0761d6478bd642f
def p1 : UInt64 := 0xe7037ed1a0b428db
def p2 : UInt64 := 0x8ebc6af09c88c6e3
def p3 : UInt64 := 0x589965cc75374cc3
def p4 : UInt64 := 0x1d8e4e27c47d124f
def p5 : UInt64 := 0xeb44accab455d165

/-- The two halves of the 128-bit product, one folded onto the other. -/
def mum (a b : UInt64) : UInt64 :=
  let product := a.toNat * b.toNat
  UInt64.ofNat (product / UInt64.size) ^^^ UInt64.ofNat product

/-- Bytes as a number, the first one lowest. -/
def little (bytes : List UInt8) : UInt64 :=
  bytes.foldr (fun byte acc => acc <<< 8 ||| byte.toUInt64) 0

/-- The word of four bytes. -/
def word32 (bytes : List UInt8) : UInt64 := little (bytes.take 4)

/-- The word of eight bytes. -/
def word64 (bytes : List UInt8) : UInt64 := little (bytes.take 8)

/-- The word of eight bytes with its two halves exchanged. -/
def swapped64 (bytes : List UInt8) : UInt64 := word32 bytes <<< 32 ||| word32 (bytes.drop 4)

/-- The number that stands for the last one to eight bytes. -/
def short (bytes : List UInt8) : UInt64 :=
  match bytes with
  | [] => 0
  | [a] => a.toUInt64
  | [a, b] => b.toUInt64 <<< 8 ||| a.toUInt64
  | [a, b, c] => b.toUInt64 <<< 16 ||| a.toUInt64 <<< 8 ||| c.toUInt64
  | [_, _, _, _] => word32 bytes
  | [_, _, _, _, e] => word32 bytes <<< 8 ||| e.toUInt64
  | [_, _, _, _, e, f] => word32 bytes <<< 16 ||| f.toUInt64 <<< 8 ||| e.toUInt64
  | [_, _, _, _, e, f, g] =>
    word32 bytes <<< 24 ||| f.toUInt64 <<< 16 ||| e.toUInt64 <<< 8 ||| g.toUInt64
  | _ => swapped64 bytes

/-- One block of 32 bytes mixed into the seed. -/
def mixBlock (seed : UInt64) (block : List UInt8) : UInt64 :=
  mum (seed ^^^ p0)
    (mum (word64 block ^^^ p1) (word64 (block.drop 8) ^^^ p2) ^^^
      mum (word64 (block.drop 16) ^^^ p3) (word64 (block.drop 24) ^^^ p4))

/-- The first `n` blocks mixed into the seed. -/
def mixBlocks : Nat → UInt64 → List UInt8 → UInt64
  | 0, seed, _ => seed
  | n + 1, seed, bytes => mixBlocks n (mixBlock seed bytes) (bytes.drop 32)

/-- The last bytes, fewer than a block, mixed into the seed. -/
def mixTail (seed : UInt64) (tail : List UInt8) : UInt64 :=
  if tail.length = 0 then seed
  else if tail.length ≤ 8 then mum seed (short tail ^^^ p1)
  else if tail.length ≤ 16 then mum (swapped64 tail ^^^ seed) (short (tail.drop 8) ^^^ p2)
  else if tail.length ≤ 24 then
    mum (swapped64 tail ^^^ seed) (swapped64 (tail.drop 8) ^^^ p2) ^^^
      mum seed (short (tail.drop 16) ^^^ p3)
  else
    mum (swapped64 tail ^^^ seed) (swapped64 (tail.drop 8) ^^^ p2) ^^^
      mum (swapped64 (tail.drop 16) ^^^ seed) (short (tail.drop 24) ^^^ p4)

/-- The 64-bit hash of some bytes. -/
def hash64 (bytes : List UInt8) : UInt64 :=
  let blocks := bytes.length / 32
  let seed := mixBlocks blocks 0 bytes ^^^ p0
  mum (mixTail seed (bytes.drop (32 * blocks))) (UInt64.ofNat bytes.length ^^^ p5)

end GossipRing.Wyhash

namespace GossipRing

/-- A hash of texts onto the 32-bit ring. -/
abbrev HashFunction := String → UInt32

/-- The default hash for ring positions and checksums. -/
def hash32 : HashFunction := fun text => (Wyhash.hash64 text.toUTF8.toList).toUInt32

end GossipRing
