import SealedText.Bytes

/-!
# Base64

Three bytes at a time become four symbols of six bits. There are two alphabets: the standard one, written
with padding, and the one that is safe in links, written without. Reading a link token takes any padding
or none; reading a padded text insists on exactly the padding that writing gives. Left-over bits have to
be zero in both.

Offsets in a defect count the bytes of the text in UTF-8.
-/

namespace SealedText.Base64

structure Alphabet where
  /-- The symbols of 62 and 63. -/
  last : UInt8 × UInt8
  /-- Whether the last group is filled up with `=`, on writing and on reading. -/
  padded : Bool

def standard : Alphabet := ⟨(43, 47), true⟩

def url : Alphabet := ⟨(45, 95), false⟩

/-- The byte of `=`. -/
def padByte : UInt8 := 61

def Alphabet.symbol (a : Alphabet) (n : Nat) : UInt8 :=
  if n < 26 then UInt8.ofNat (65 + n)
  else if n < 52 then UInt8.ofNat (97 + (n - 26))
  else if n < 62 then UInt8.ofNat (48 + (n - 52))
  else if n = 62 then a.last.1
  else a.last.2

def Alphabet.digit? (a : Alphabet) (b : UInt8) : Option Nat :=
  if 65 ≤ b ∧ b ≤ 90 then some (b.toNat - 65)
  else if 97 ≤ b ∧ b ≤ 122 then some (b.toNat - 97 + 26)
  else if 48 ≤ b ∧ b ≤ 57 then some (b.toNat - 48 + 52)
  else if b = a.last.1 then some 62
  else if b = a.last.2 then some 63
  else none

def Alphabet.padding (a : Alphabet) (n : Nat) : Bytes :=
  if a.padded then List.replicate n padByte else []

def encodeBytes (a : Alphabet) : Bytes → Bytes
  | [] => []
  | [x] =>
    let n := x.toNat * 16
    a.symbol (n / 64) :: a.symbol (n % 64) :: a.padding 2
  | [x, y] =>
    let n := (x.toNat * 256 + y.toNat) * 4
    a.symbol (n / 4096) :: a.symbol (n / 64 % 64) :: a.symbol (n % 64) :: a.padding 1
  | x :: y :: z :: rest =>
    let n := (x.toNat * 256 + y.toNat) * 256 + z.toNat
    a.symbol (n / 262144) :: a.symbol (n / 4096 % 64) :: a.symbol (n / 64 % 64) ::
      a.symbol (n % 64) :: encodeBytes a rest

/-- The text of bytes that are all ASCII. -/
def asciiText (bytes : Bytes) : String := String.ofList (bytes.map fun b => Char.ofNat b.toNat)

def encode (a : Alphabet) (data : Bytes) : String := asciiText (encodeBytes a data)

/-- What is wrong with a Base64 text. -/
inductive Defect
  | invalidByte (offset : Nat) (byte : UInt8)
  | invalidLength (length : Nat)
  | invalidLastSymbol (offset : Nat) (byte : UInt8)
  | invalidPadding
  deriving DecidableEq, Repr

def Defect.message : Defect → String
  | invalidByte offset byte => s!"Invalid symbol {byte.toNat}, offset {offset}."
  | invalidLength length => s!"Invalid input length: {length}"
  | invalidLastSymbol offset byte => s!"Invalid last symbol {byte.toNat}, offset {offset}."
  | invalidPadding => "Invalid padding"

/-- The digits of a stretch of symbols that starts at `offset`. -/
def readSymbols (a : Alphabet) (offset : Nat) : Bytes → Except Defect (List Nat)
  | [] => .ok []
  | b :: rest =>
    match a.digit? b with
    | none => .error (.invalidByte offset b)
    | some d => return d :: (← readSymbols a (offset + 1) rest)

/-- The symbols of the last group, with their digits, and the number of `=` after them. `=` may not be
one of the first two characters, and nothing but `=` may follow it. -/
def readTail (a : Alphabet) (start : Nat) (symbols : List (UInt8 × Nat)) (pads : Nat) :
    Bytes → Except Defect (List (UInt8 × Nat) × Nat)
  | [] => .ok (symbols, pads)
  | b :: rest =>
    if b = padByte then
      if symbols.length + pads < 2 then .error (.invalidByte (start + symbols.length + pads) b)
      else readTail a start symbols (pads + 1) rest
    else if pads > 0 then .error (.invalidByte (start + symbols.length) padByte)
    else
      match a.digit? b with
      | none => .error (.invalidByte (start + symbols.length) b)
      | some d => readTail a start (symbols ++ [(b, d)]) pads rest

/-- The bytes of full groups of four digits. -/
def groupBytes : List Nat → Bytes
  | d0 :: d1 :: d2 :: d3 :: rest =>
    Bytes.ofNat 3 (((d0 * 64 + d1) * 64 + d2) * 64 + d3) ++ groupBytes rest
  | _ => []

/-- The bytes of the last group, which starts at `start`. -/
def decodeTail (a : Alphabet) (start : Nat) (tail : Bytes) : Except Defect Bytes := do
  let (symbols, pads) ← readTail a start [] 0 tail
  if tail.isEmpty then return []
  if symbols.length < 2 then throw (.invalidLength (start + symbols.length))
  if a.padded ∧ (symbols.length + pads) % 4 ≠ 0 then throw .invalidPadding
  let bits := symbols.foldl (fun acc s => acc * 64 + s.2) 0
  let count := symbols.length * 6 / 8
  let spare := 1 <<< (symbols.length * 6 - count * 8)
  if bits % spare ≠ 0 then
    throw (.invalidLastSymbol (start + symbols.length - 1) (symbols.getLastD (0, 0)).1)
  return Bytes.ofNat count (bits / spare)

/-- Where the last group starts. -/
def tailStart (length : Nat) : Nat := (length - 1) / 4 * 4

def decodeBytes (a : Alphabet) (text : Bytes) : Except Defect Bytes := do
  let last := text.getLastD padByte
  if text.length % 4 = 1 ∧ last ≠ padByte ∧ a.digit? last = none then
    throw (.invalidByte (text.length - 1) last)
  let start := tailStart text.length
  let digits ← readSymbols a 0 (text.take start)
  return groupBytes digits ++ (← decodeTail a start (text.drop start))

def decode (a : Alphabet) (text : String) : Except Defect Bytes :=
  decodeBytes a text.toUTF8.toList

end SealedText.Base64
