/-!
# Reading UTF-8

Bytes from outside become text only if they are well-formed UTF-8. When they are not, the defect says
where the first bad sequence starts and how many of its bytes could still have begun a character; a
sequence cut off by the end of the data has no such number.
-/

namespace SealedText.Utf8

inductive Defect
  | invalid (offset length : Nat)
  | incomplete (offset : Nat)
  deriving DecidableEq, Repr

def Defect.message : Defect → String
  | invalid offset length => s!"invalid utf-8 sequence of {length} bytes from index {offset}"
  | incomplete offset => s!"incomplete utf-8 byte sequence from index {offset}"

/-- The ranges of the bytes that have to follow a first byte, if it can start a character. -/
def followers? (first : UInt8) : Option (List (UInt8 × UInt8)) :=
  let any := ((0x80, 0xbf) : UInt8 × UInt8)
  if first < 0x80 then some []
  else if 0xc2 ≤ first && first ≤ 0xdf then some [any]
  else if first = 0xe0 then some [(0xa0, 0xbf), any]
  else if first = 0xed then some [(0x80, 0x9f), any]
  else if 0xe1 ≤ first && first ≤ 0xef then some [any, any]
  else if first = 0xf0 then some [(0x90, 0xbf), any, any]
  else if first = 0xf4 then some [(0x80, 0x8f), any, any]
  else if 0xf1 ≤ first && first ≤ 0xf3 then some [any, any, any]
  else none

/-- Check the bytes after the first `seen` bytes of the sequence at `offset`; its length, or the defect. -/
def checkFollowers (data : ByteArray) (offset seen : Nat) :
    List (UInt8 × UInt8) → Except Defect Nat
  | [] => .ok seen
  | (low, high) :: rest =>
    match data[offset + seen]? with
    | none => .error (.incomplete offset)
    | some b =>
      if low ≤ b && b ≤ high then checkFollowers data offset (seen + 1) rest
      else .error (.invalid offset seen)

/-- The first defect at or after `offset`, if any, looking at no more than `fuel` sequences. -/
def defectFrom (data : ByteArray) : Nat → Nat → Option Defect
  | 0, _ => none
  | fuel + 1, offset =>
    match data[offset]? with
    | none => none
    | some first =>
      match followers? first with
      | none => some (.invalid offset 1)
      | some ranges =>
        match checkFollowers data offset 1 ranges with
        | .error d => some d
        | .ok length => defectFrom data fuel (offset + length)

/-- The text of well-formed bytes. -/
def decode (data : ByteArray) : Except Defect String :=
  match String.fromUTF8? data with
  | some text => .ok text
  | none => .error ((defectFrom data data.size 0).getD (.incomplete 0))

/-- The bytes of a list as an array. -/
def pack (bytes : List UInt8) : ByteArray := ⟨bytes.toArray⟩

end SealedText.Utf8
