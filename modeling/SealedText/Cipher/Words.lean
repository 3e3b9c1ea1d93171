import SealedText.Bytes

/-!
# Blocks of four words

Serpent and Twofish see a block as four 32-bit words, each with its least significant byte first.
-/

namespace SealedText

structure Quad where
  w0 : UInt32
  w1 : UInt32
  w2 : UInt32
  w3 : UInt32
  deriving DecidableEq, Inhabited

/-- Rotation of a word to the left, by less than its width. -/
def rotateLeft (w n : UInt32) : UInt32 := (w <<< n) ||| (w >>> (32 - n))

def rotateRight (w n : UInt32) : UInt32 := (w >>> n) ||| (w <<< (32 - n))

/-- The word of four bytes, least significant first. -/
def wordOfBytes (a b c d : UInt8) : UInt32 :=
  a.toUInt32 ||| (b.toUInt32 <<< 8) ||| (c.toUInt32 <<< 16) ||| (d.toUInt32 <<< 24)

def bytesOfWord (w : UInt32) : Bytes :=
  [w.toUInt8, (w >>> 8).toUInt8, (w >>> 16).toUInt8, (w >>> 24).toUInt8]

/-- The words of a byte string, four bytes each; missing bytes count as 0. -/
def wordsOfBytes (bytes : Bytes) : List UInt32 :=
  (blocksOf 4 bytes).map fun w => wordOfBytes (w.getD 0 0) (w.getD 1 0) (w.getD 2 0) (w.getD 3 0)

namespace Quad

def xor (p q : Quad) : Quad := ⟨p.w0 ^^^ q.w0, p.w1 ^^^ q.w1, p.w2 ^^^ q.w2, p.w3 ^^^ q.w3⟩

/-- Sixteen bytes as four words; any other length has no words of its own. -/
def ofBytes : Bytes → Quad
  | [a0, a1, a2, a3, a4, a5, a6, a7, a8, a9, a10, a11, a12, a13, a14, a15] =>
    ⟨wordOfBytes a0 a1 a2 a3, wordOfBytes a4 a5 a6 a7,
      wordOfBytes a8 a9 a10 a11, wordOfBytes a12 a13 a14 a15⟩
  | _ => default

def toBytes (p : Quad) : Bytes :=
  bytesOfWord p.w0 ++ bytesOfWord p.w1 ++ bytesOfWord p.w2 ++ bytesOfWord p.w3

end Quad

end SealedText
