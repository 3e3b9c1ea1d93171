import SealedText.Cipher.Basic

/-!
# AES with a 256-bit key

The block is a square of sixteen bytes, held as four columns. Encrypting adds a round key, then runs
fourteen rounds of substitution, row shift, column mix and key addition, the last without the mix.
`decryptRounds` undoes `encryptRounds` step by step, in the opposite order.
-/

namespace SealedText.Aes

structure Column where
  b0 : UInt8
  b1 : UInt8
  b2 : UInt8
  b3 : UInt8
  deriving DecidableEq, Inhabited

structure Square where
  c0 : Column
  c1 : Column
  c2 : Column
  c3 : Column
  deriving DecidableEq, Inhabited

/-- The substitution table: the inverse in the field of 256 elements, then an affine map. -/
def substitution : Array UInt8 := #[
  0x63, 0x7c, 0x77, 0x7b, 0xf2, 0x6b, 0x6f, 0xc5, 0x30, 0x01, 0x67, 0x2b, 0xfe, 0xd7, 0xab, 0x76,
  0xca, 0x82, 0xc9, 0x7d, 0xfa, 0x59, 0x47, 0xf0, 0xad, 0xd4, 0xa2, 0xaf, 0x9c, 0xa4, 0x72, 0xc0,
  0xb7, 0xfd, 0x93, 0x26, 0x36, 0x3f, 0xf7, 0xcc, 0x34, 0xa5, 0xe5, 0xf1, 0x71, 0xd8, 0x31, 0x15,
  0x04, 0xc7, 0x23, 0xc3, 0x18, 0x96, 0x05, 0x9a, 0x07, 0x12, 0x80, 0xe2, 0xeb, 0x27, 0xb2, 0x75,
  0x09, 0x83, 0x2c, 0x1a, 0x1b, 0x6e, 0x5a, 0xa0, 0x52, 0x3b, 0xd6, 0xb3, 0x29, 0xe3, 0x2f, 0x84,
  0x53, 0xd1, 0x00, 0xed, 0x20, 0xfc, 0xb1, 0x5b, 0x6a, 0xcb, 0xbe, 0x39, 0x4a, 0x4c, 0x58, 0xcf,
  0xd0, 0xef, 0xaa, 0xfb, 0x43, 0x4d, 0x33, 0x85, 0x45, 0xf9, 0x02, 0x7f, 0x50, 0x3c, 0x9f, 0xa8,
  0x51, 0xa3, 0x40, 0x8f, 0x92, 0x9d, 0x38, 0xf5, 0xbc, 0xb6, 0xda, 0x21, 0x10, 0xff, 0xf3, 0xd2,
  0xcd, 0x0c, 0x13, 0xec, 0x5f, 0x97, 0x44, 0x17, 0xc4, 0xa7, 0x7e, 0x3d, 0x64, 0x5d, 0x19, 0x73,
  0x60, 0x81, 0x4f, 0xdc, 0x22, 0x2a, 0x90, 0x88, 0x46, 0xee, 0xb8, 0x14, 0xde, 0x5e, 0x0b, 0xdb,
  0xe0, 0x32, 0x3a, 0x0a, 0x49, 0x06, 0x24, 0x5c, 0xc2, 0xd3, 0xac, 0x62, 0x91, 0x95, 0xe4, 0x79,
  0xe7, 0xc8, 0x37, 0x6d, 0x8d, 0xd5, 0x4e, 0xa9, 0x6c, 0x56, 0xf4, 0xea, 0x65, 0x7a, 0xae, 0x08,
  0xba, 0x78, 0x25, 0x2e, 0x1c, 0xa6, 0xb4, 0xc6, 0xe8, 0xdd, 0x74, 0x1f, 0x4b, 0xbd, 0x8b, 0x8a,
  0x70, 0x3e, 0xb5, 0x66, 0x48, 0x03, 0xf6, 0x0e, 0x61, 0x35, 0x57, 0xb9, 0x86, 0xc1, 0x1d, 0x9e,
  0xe1, 0xf8, 0x98, 0x11, 0x69, 0xd9, 0x8e, 0x94, 0x9b, 0x1e, 0x87, 0xe9, 0xce, 0x55, 0x28, 0xdf,
  0x8c, 0xa1, 0x89, 0x0d, 0xbf, 0xe6, 0x42, 0x68, 0x41, 0x99, 0x2d, 0x0f, 0xb0, 0x54, 0xbb, 0x16]

def inverseSubstitution : Array UInt8 := #[
  0x52, 0x09, 0x6a, 0xd5, 0x30, 0x36, 0xa5, 0x38, 0xbf, 0x40, 0xa3, 0x9e, 0x81, 0xf3, 0xd7, 0xfb,
  0x7c, 0xe3, 0x39, 0x82, 0x9b, 0x2f, 0xff, 0x87, 0x34, 0x8e, 0x43, 0x44, 0xc4, 0xde, 0xe9, 0xcb,
  0x54, 0x7b, 0x94, 0x32, 0xa6, 0xc2, 0x23, 0x3d, 0xee, 0x4c, 0x95, 0x0b, 0x42, 0xfa, 0xc3, 0x4e,
  0x08, 0x2e, 0xa1, 0x66, 0x28, 0xd9, 0x24, 0xb2, 0x76, 0x5b, 0xa2, 0x49, 0x6d, 0x8b, 0xd1, 0x25,
  0x72, 0xf8, 0xf6, 0x64, 0x86, 0x68, 0x98, 0x16, 0xd4, 0xa4, 0x5c, 0xcc, 0x5d, 0x65, 0xb6, 0x92,
  0x6c, 0x70, 0x48, 0x50, 0xfd, 0xed, 0xb9, 0xda, 0x5e, 0x15, 0x46, 0x57, 0xa7, 0x8d, 0x9d, 0x84,
  0x90, 0xd8, 0xab, 0x00, 0x8c, 0xbc, 0xd3, 0x0a, 0xf7, 0xe4, 0x58, 0x05, 0xb8, 0xb3, 0x45, 0x06,
  0xd0, 0x2c, 0x1e, 0x8f, 0xca, 0x3f, 0x0f, 0x02, 0xc1, 0xaf, 0xbd, 0x03, 0x01, 0x13, 0x8a, 0x6b,
  0x3a, 0x91, 0x11, 0x41, 0x4f, 0x67, 0xdc, 0xea, 0x97, 0xf2, 0xcf, 0xce, 0xf0, 0xb4, 0xe6, 0x73,
  0x96, 0xac, 0x74, 0x22, 0xe7, 0xad, 0x35, 0x85, 0xe2, 0xf9, 0x37, 0xe8, 0x1c, 0x75, 0xdf, 0x6e,
  0x47, 0xf1, 0x1a, 0x71, 0x1d, 0x29, 0xc5, 0x89, 0x6f, 0xb7, 0x62, 0x0e, 0xaa, 0x18, 0xbe, 0x1b,
  0xfc, 0x56, 0x3e, 0x4b, 0xc6, 0xd2, 0x79, 0x20, 0x9a, 0xdb, 0xc0, 0xfe, 0x78, 0xcd, 0x5a, 0xf4,
  0x1f, 0xdd, 0xa8, 0x33, 0x88, 0x07, 0xc7, 0x31, 0xb1, 0x12, 0x10, 0x59, 0x27, 0x80, 0xec, 0x5f,
  0x60, 0x51, 0x7f, 0xa9, 0x19, 0xb5, 0x4a, 0x0d, 0x2d, 0xe5, 0x7a, 0x9f, 0x93, 0xc9, 0x9c, 0xef,
  0xa0, 0xe0, 0x3b, 0x4d, 0xae, 0x2a, 0xf5, 0xb0, 0xc8, 0xeb, 0xbb, 0x3c, 0x83, 0x53, 0x99, 0x61,
  0x17, 0x2b, 0x04, 0x7e, 0xba, 0x77, 0xd6, 0x26, 0xe1, 0x69, 0x14, 0x63, 0x55, 0x21, 0x0c, 0x7d]

def substitute (b : UInt8) : UInt8 := substitution.getD b.toNat 0

def unsubstitute (b : UInt8) : UInt8 := inverseSubstitution.getD b.toNat 0

/-- Multiplication by `x` in the field of 256 elements. -/
def xtime (b : UInt8) : UInt8 := (b <<< 1) ^^^ ((b >>> 7) * 0x1b)

namespace Column

def add (p q : Column) : Column := ⟨p.b0 ^^^ q.b0, p.b1 ^^^ q.b1, p.b2 ^^^ q.b2, p.b3 ^^^ q.b3⟩

def map (f : UInt8 → UInt8) (p : Column) : Column := ⟨f p.b0, f p.b1, f p.b2, f p.b3⟩

/-- The column moved up by one byte, the first byte going last. -/
def rotate (p : Column) : Column := ⟨p.b1, p.b2, p.b3, p.b0⟩

/-- The product with the circulant matrix of first row 2, 3, 1, 1. -/
def mix (p : Column) : Column :=
  let line (a b c d : UInt8) := xtime a ^^^ (xtime b ^^^ b) ^^^ c ^^^ d
  ⟨line p.b0 p.b1 p.b2 p.b3, line p.b1 p.b2 p.b3 p.b0,
    line p.b2 p.b3 p.b0 p.b1, line p.b3 p.b0 p.b1 p.b2⟩

/-- The product with the circulant matrix of first row 14, 11, 13, 9, the inverse of `mix`. -/
def unmix (p : Column) : Column :=
  let line (a b c d : UInt8) :=
    let x2 := xtime (a ^^^ b)
    let x4 := xtime (xtime (a ^^^ c))
    let x8 := xtime (xtime (xtime (a ^^^ b ^^^ c ^^^ d)))
    x8 ^^^ x4 ^^^ x2 ^^^ b ^^^ c ^^^ d
  ⟨line p.b0 p.b1 p.b2 p.b3, line p.b1 p.b2 p.b3 p.b0,
    line p.b2 p.b3 p.b0 p.b1, line p.b3 p.b0 p.b1 p.b2⟩

end Column

namespace Square

def add (s t : Square) : Square := ⟨s.c0.add t.c0, s.c1.add t.c1, s.c2.add t.c2, s.c3.add t.c3⟩

def map (f : Column → Column) (s : Square) : Square := ⟨f s.c0, f s.c1, f s.c2, f s.c3⟩

/-- Row `r` moved left by `r` columns. -/
def shiftRows (s : Square) : Square :=
  ⟨⟨s.c0.b0, s.c1.b1, s.c2.b2, s.c3.b3⟩, ⟨s.c1.b0, s.c2.b1, s.c3.b2, s.c0.b3⟩,
    ⟨s.c2.b0, s.c3.b1, s.c0.b2, s.c1.b3⟩, ⟨s.c3.b0, s.c0.b1, s.c1.b2, s.c2.b3⟩⟩

/-- Row `r` moved right by `r` columns. -/
def unshiftRows (s : Square) : Square :=
  ⟨⟨s.c0.b0, s.c3.b1, s.c2.b2, s.c1.b3⟩, ⟨s.c1.b0, s.c0.b1, s.c3.b2, s.c2.b3⟩,
    ⟨s.c2.b0, s.c1.b1, s.c0.b2, s.c3.b3⟩, ⟨s.c3.b0, s.c2.b1, s.c1.b2, s.c0.b3⟩⟩

/-- Sixteen bytes as four columns; any other length has no square of its own. -/
def ofBytes : Bytes → Square
  | [a0, a1, a2, a3, a4, a5, a6, a7, a8, a9, a10, a11, a12, a13, a14, a15] =>
    ⟨⟨a0, a1, a2, a3⟩, ⟨a4, a5, a6, a7⟩, ⟨a8, a9, a10, a11⟩, ⟨a12, a13, a14, a15⟩⟩
  | _ => default

def toBytes (s : Square) : Bytes :=
  [s.c0.b0, s.c0.b1, s.c0.b2, s.c0.b3, s.c1.b0, s.c1.b1, s.c1.b2, s.c1.b3,
    s.c2.b0, s.c2.b1, s.c2.b2, s.c2.b3, s.c3.b0, s.c3.b1, s.c3.b2, s.c3.b3]

end Square

/-- The rounds, one per key of the list, the last without the column mix. -/
def encryptRounds : List Square → Square → Square
  | [], s => s
  | [k], s => ((s.map (Column.map substitute)).shiftRows).add k
  | k :: ks, s =>
    encryptRounds ks ((((s.map (Column.map substitute)).shiftRows).map Column.mix).add k)

/-- The rounds undone, from the last key to the first. -/
def decryptRounds : List Square → Square → Square
  | [], s => s
  | [k], s => ((s.add k).unshiftRows).map (Column.map unsubstitute)
  | k :: ks, s =>
    ((((decryptRounds ks s).add k).map Column.unmix).unshiftRows).map (Column.map unsubstitute)

def encryptSquare : List Square → Square → Square
  | [], s => s
  | k :: ks, s => encryptRounds ks (s.add k)

def decryptSquare : List Square → Square → Square
  | [], s => s
  | k :: ks, s => (decryptRounds ks s).add k

/-- The constants added to every eighth word of the schedule: the powers of `x`. -/
def roundConstant : Nat → UInt8
  | 0 => 1
  | n + 1 => xtime (roundConstant n)

/-- Word `i` of the schedule, from the words before it. -/
def scheduleWord (words : Array Column) (i : Nat) : Column :=
  let last := words.getD (i - 1) default
  let turned :=
    if i % 8 = 0 then
      ((last.rotate).map substitute).add ⟨roundConstant (i / 8 - 1), 0, 0, 0⟩
    else if i % 8 = 4 then last.map substitute
    else last
  (words.getD (i - 8) default).add turned

/-- The fifteen round keys of a 32-byte key. -/
def roundKeys (key : Bytes) : List Square :=
  let first := (blocksOf 4 key).map fun w => Column.mk (w.getD 0 0) (w.getD 1 0) (w.getD 2 0) (w.getD 3 0)
  let words := (List.range 52).foldl (fun words n => words.push (scheduleWord words (n + 8)))
    first.toArray
  (List.range 15).map fun r =>
    ⟨words.getD (4 * r) default, words.getD (4 * r + 1) default,
      words.getD (4 * r + 2) default, words.getD (4 * r + 3) default⟩

def cipher : BlockCipher where
  name := "AES"
  blockSize := 16
  keySize := 32
  keyed key :=
    let keys := roundKeys key
    { encrypt := fun block => (encryptSquare keys (.ofBytes block)).toBytes
      decrypt := fun block => (decryptSquare keys (.ofBytes block)).toBytes }

end SealedText.Aes
