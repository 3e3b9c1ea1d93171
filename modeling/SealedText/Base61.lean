import SealedText.Bytes
import SealedText.Text.Blank

/-!
# Base61

Bytes as letters and digits only, for QR codes and for copying by hand. The 61 symbols are the capital
letters, the small letters and the digits 1 to 9, so neither `0` nor punctuation occurs.

Eight bytes at a time are read as a number and written with its base-61 digits, least significant first,
always as many as the largest number of that many bytes needs:

| bytes   | 1 | 2 | 3 | 4 | 5 | 6 | 7  | 8  |
| --      | --| --| --| --| --| --| -- | -- |
| symbols | 2 | 3 | 5 | 6 | 7 | 9 | 10 | 11 |

Only the last group can be short, and its length tells how many bytes it holds. Reading skips white space
and control characters wherever they stand, refuses any other foreign character, then refuses the first
group that writing cannot produce.
-/

namespace SealedText.Base61

/-- How many bytes make a full group. -/
def groupBytes : Nat := 8

/-- How many symbols a full group has. -/
def groupSymbols : Nat := 11

/-- The symbol of a base-61 digit. -/
def symbol (digit : Nat) : Char :=
  if digit < 26 then Char.ofNat (65 + digit)
  else if digit < 52 then Char.ofNat (97 + (digit - 26))
  else Char.ofNat (49 + (digit - 52))

/-- The digit of a symbol. -/
def digit? (c : Char) : Option Nat :=
  if 'A' ≤ c ∧ c ≤ 'Z' then some (c.toNat - 65)
  else if 'a' ≤ c ∧ c ≤ 'z' then some (c.toNat - 97 + 26)
  else if '1' ≤ c ∧ c ≤ '9' then some (c.toNat - 49 + 52)
  else none

/-- How many symbols write a group of bytes: the least `n` with `256 ^ bytes ≤ 61 ^ n`. -/
def symbolCount : Nat → Nat
  | 0 => 0
  | 1 => 2
  | 2 => 3
  | 3 => 5
  | 4 => 6
  | 5 => 7
  | 6 => 9
  | 7 => 10
  | _ => 11

/-- How many bytes a group of symbols holds, for the lengths that writing produces. -/
def byteCount? : Nat → Option Nat
  | 2 => some 1
  | 3 => some 2
  | 5 => some 3
  | 6 => some 4
  | 7 => some 5
  | 9 => some 6
  | 10 => some 7
  | 11 => some 8
  | _ => none

/-- The `count` lowest base-61 digits of a number, least significant first. -/
def digits : Nat → Nat → List Nat
  | 0, _ => []
  | count + 1, value => value % 61 :: digits count (value / 61)

/-- The number with the given base-61 digits, least significant first. -/
def value (digits : List Nat) : Nat := digits.foldr (fun d acc => acc * 61 + d) 0

def encodeGroup (group : Bytes) : List Char :=
  (digits (symbolCount group.length) group.toNat).map symbol

def encodeChars (data : Bytes) : List Char := (blocksOf groupBytes data).flatMap encodeGroup

def encode (data : Bytes) : String := String.ofList (encodeChars data)

/-- What is wrong with a Base61 text. Positions count every character, skipped ones too. -/
inductive Defect
  | symbol (found : Char) (position : Nat)
  | group (length : Nat)
  deriving DecidableEq, Repr

/-- The characters that reading skips. -/
def isSkipped (c : Char) : Bool := isBlank c || isControl c

/-- The digits of a text from the given position on. -/
def readDigits (position : Nat) : List Char → Except Defect (List Nat)
  | [] => .ok []
  | c :: rest =>
    if isSkipped c then readDigits (position + 1) rest
    else
      match digit? c with
      | none => .error (.symbol c position)
      | some d => return d :: (← readDigits (position + 1) rest)

def decodeGroup (group : List Nat) : Except Defect Bytes :=
  match byteCount? group.length with
  | none => .error (.group group.length)
  | some bytes =>
    if value group < Nat.pow 256 bytes then .ok (Bytes.ofNat bytes (value group))
    else .error (.group group.length)

def decodeGroups : List (List Nat) → Except Defect Bytes
  | [] => .ok []
  | group :: rest => return (← decodeGroup group) ++ (← decodeGroups rest)

def decodeChars (text : List Char) : Except Defect Bytes := do
  decodeGroups (blocksOf groupSymbols (← readDigits 0 text))

def decode (text : String) : Except Defect Bytes := decodeChars text.toList

/-- A space after every `width` characters but the last, for reading aloud. A width of 0 adds none. -/
def spaced (width : Nat) (text : String) : String :=
  if width = 0 then text
  else String.ofList ([' '].intercalate (blocksOf width text.toList))

end SealedText.Base61
