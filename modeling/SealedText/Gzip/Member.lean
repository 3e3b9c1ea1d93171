import SealedText.Gzip.Crc32
import SealedText.Gzip.Deflate

/-!
# Gzip members

A member is a header, deflated data, and a trailer with the checksum and the length of the data.
`decompress` reads the first member of its input and stops as soon as it has more than `limit` bytes, before
it has looked at the trailer. `compress` makes a member of data of any length.
-/

namespace SealedText.Gzip

/-- Why a member cannot be read. -/
inductive MemberFault
  | endOfInput
  | header
  /-- A name or a comment in the header goes on and on. -/
  | headerText
  | deflated (fault : DeflateFault)
  | checksum
  | tooLong
  deriving DecidableEq, Repr

def DeflateFault.message : DeflateFault → String
  | incomplete => "incomplete deflate stream"
  | corrupt => "corrupt deflate stream"

def headerSize : Nat := 10

def trailerSize : Nat := 8

/-- The lowest bytes of a number, least significant first. -/
def littleEndian : Nat → Nat → List UInt8
  | 0, _ => []
  | width + 1, n => UInt8.ofNat n :: littleEndian width (n / 256)

/-- The number in `width` bytes at an index, least significant first. -/
def littleEndianAt (data : ByteArray) (i : Nat) : Nat → Nat
  | 0 => 0
  | width + 1 => byteAt data i + 256 * littleEndianAt data (i + 1) width

/-- The most bytes of a name or a comment in the header, without the zero byte that ends it. -/
def maxHeaderText : Nat := 65535

/-- The index after the zero byte that ends a text of at most so many bytes. -/
def skipText (data : ByteArray) (most i : Nat) : Except MemberFault Nat :=
  if i ≥ data.size then .error .endOfInput
  else if byteAt data i = 0 then .ok (i + 1)
  else
    match most with
    | 0 => .error .headerText
    | most + 1 => skipText data most (i + 1)

/-- Where the deflated data starts. The optional fields of the header are skipped, and its own checksum is
compared if it is there. -/
def memberStart (data : ByteArray) : Except MemberFault Nat := do
  if data.size < headerSize then throw .endOfInput
  let flags := byteAt data 3
  if byteAt data 0 ≠ 0x1f || byteAt data 1 ≠ 0x8b || byteAt data 2 ≠ 8 || flags ≥ 32 then
    throw .header
  let mut i := headerSize
  if flags.testBit 2 then
    if i + 2 > data.size then throw .endOfInput
    i := i + 2 + littleEndianAt data i 2
    if i > data.size then throw .endOfInput
  if flags.testBit 3 then
    i ← skipText data maxHeaderText i
  if flags.testBit 4 then
    i ← skipText data maxHeaderText i
  if flags.testBit 1 then
    if i + 2 > data.size then throw .endOfInput
    if littleEndianAt data i 2 ≠ (crc32 (data.extract 0 i)).toNat % 65536 then throw .checksum
    i := i + 2
  return i

/-- The data of the first member. -/
def decompress (limit : Nat) (data : ByteArray) : Except MemberFault ByteArray := do
  let start ← memberStart data
  match inflate data start (limit + 1) with
  | .error fault => throw (.deflated fault)
  | .ok s =>
    if s.out.size > limit then throw .tooLong
    let trailer := (s.pos + 7) / 8
    if trailer + trailerSize > data.size then throw .endOfInput
    if littleEndianAt data trailer 4 ≠ (crc32 s.out).toNat ||
        littleEndianAt data (trailer + 4) 4 ≠ s.out.size % 0x100000000 then
      throw .checksum
    return s.out

/-- The header byte that hints at the effort spent. -/
def effortHint (level : Nat) : UInt8 := if level ≥ 9 then 2 else if level ≤ 1 then 4 else 0

/-- A member around deflated data. -/
def frame (level : Nat) (data deflated : ByteArray) : ByteArray :=
  let header := [0x1f, 0x8b, 8, 0, 0, 0, 0, 0, effortHint level, 255]
  let trailer := littleEndian 4 (crc32 data).toNat ++ littleEndian 4 data.size
  ⟨header.toArray⟩ ++ deflated ++ ⟨trailer.toArray⟩

/-- A member that holds the data. -/
def compress (level : Nat) (data : ByteArray) : ByteArray := frame level data (deflate level data)

end SealedText.Gzip
