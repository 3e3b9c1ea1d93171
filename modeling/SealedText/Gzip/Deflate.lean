import SealedText.Gzip.CodeLengths
import SealedText.Gzip.Inflate
import SealedText.Gzip.Token

/-!
# Deflating

Data becomes one coded block, with the fixed codes or with codes made for it, whichever is shorter, or
stored blocks as it stands. A coded block is a list of fields, each some bits of a number; `packBits`
lays them end to end, least significant bit first.
-/

namespace SealedText.Gzip

/-- Some bits of a number. -/
structure Field where
  value : Nat
  width : Nat

/-- A byte string under way: the finished bytes, and the bits of the next one. -/
structure BitBuffer where
  done : ByteArray
  pending : Nat
  count : Nat

namespace BitBuffer

def empty : BitBuffer := ⟨.empty, 0, 0⟩

/-- Move whole bytes out of the pending bits. -/
def flush : Nat → BitBuffer → BitBuffer
  | 0, b => b
  | n + 1, b =>
    if b.count < 8 then b
    else flush n ⟨b.done.push (UInt8.ofNat b.pending), b.pending / 256, b.count - 8⟩

def add (b : BitBuffer) (f : Field) : BitBuffer :=
  let b : BitBuffer := ⟨b.done, b.pending + (f.value <<< b.count), b.count + f.width⟩
  b.flush (b.count / 8)

/-- The bytes, the last one filled up with zeros. -/
def finish (b : BitBuffer) : ByteArray :=
  if b.count = 0 then b.done else b.done.push (UInt8.ofNat b.pending)

end BitBuffer

def packBits (fields : List Field) : ByteArray := (fields.foldl BitBuffer.add .empty).finish

/-- The lowest `width` bits of a number in opposite order. -/
def reversedBits (value : Nat) : Nat → Nat
  | 0 => 0
  | width + 1 => ((value % 2) <<< width) + reversedBits (value / 2) width

/-- Codewords as fields. Their first bit comes first, so the value is turned round. -/
def codeFields (lengths : List Nat) : Array Field :=
  ((codewords lengths).map fun w => (⟨reversedBits w.2 w.1, w.1⟩ : Field)).toArray

/-- The last row of a table whose base is at most `n`: its index and the extra bits for `n`. -/
def rowOf (table : Array (Nat × Nat)) (n : Nat) : Nat × Field :=
  let row := table.foldl (fun count r => if r.1 ≤ n then count + 1 else count) 0 - 1
  let (base, extra) := table.getD row (0, 0)
  (row, ⟨n - base, extra⟩)

/-- A symbol with the extra bits that follow it. -/
structure Coded where
  symbol : Nat
  extra : Field

def noExtra : Field := ⟨0, 0⟩

def endOfBlock : Nat := 256

/-- The symbols of a token: a literal or a length, and a distance if it is a copy. -/
def Token.coded : Token → Coded × Option Coded
  | .literal b => (⟨b.toNat, noExtra⟩, none)
  | .copy length distance =>
    let (row, extra) := rowOf copyLengths length
    let (distanceRow, distanceExtra) := rowOf copyDistances distance
    (⟨257 + row, extra⟩, some ⟨distanceRow, distanceExtra⟩)

def Coded.fields (codes : Array Field) (c : Coded) : List Field :=
  [codes.getD c.symbol noExtra, c.extra]

/-- The fields of the symbols of a block under two codes, with the end of the block. -/
def bodyFields (symbolLengths distanceLengths : List Nat) (body : List (Coded × Option Coded)) :
    List Field :=
  let symbols := codeFields symbolLengths
  let distances := codeFields distanceLengths
  (body.flatMap fun c => c.1.fields symbols ++ c.2.elim [] (·.fields distances)) ++
    [symbols.getD endOfBlock noExtra]

/-- How often each of `size` symbols occurs. -/
def countSymbols (size : Nat) (symbols : List Nat) : List Nat :=
  (symbols.foldl (fun (counts : Array Nat) sym => counts.modify sym (· + 1))
    (Array.replicate size 0)).toList

/-- A list without the zeros at its end, but with at least `least` elements. -/
def trimZeros (least : Nat) (lengths : List Nat) : List Nat :=
  let kept := (lengths.reverse.dropWhile (· == 0)).reverse
  kept ++ List.replicate (least - kept.length) 0

/-- The equal neighbours of a list, with their number. -/
def runsOf (lengths : List Nat) : List (Nat × Nat) :=
  lengths.foldr (fun l runs =>
    match runs with
    | (m, n) :: rest => if m = l then (l, n + 1) :: rest else (l, 1) :: runs
    | [] => [(l, 1)]) []

/-- Zeros as symbols of the code for lengths. -/
def zeroRun : Nat → Nat → List Coded
  | 0, _ => []
  | fuel + 1, n =>
    if n < 3 then List.replicate n ⟨0, noExtra⟩
    else if n < 11 then [⟨17, ⟨n - 3, 3⟩⟩]
    else ⟨18, ⟨min n 138 - 11, 7⟩⟩ :: zeroRun fuel (n - 138)

/-- `n` repeats of the length before. -/
def repeatRun (length : Nat) : Nat → Nat → List Coded
  | 0, _ => []
  | fuel + 1, n =>
    if n < 3 then List.replicate n ⟨length, noExtra⟩
    else ⟨16, ⟨min n 6 - 3, 2⟩⟩ :: repeatRun length fuel (n - 6)

def lengthSymbols (lengths : List Nat) : List Coded :=
  (runsOf lengths).flatMap fun (length, n) =>
    if length = 0 then zeroRun n n else ⟨length, noExtra⟩ :: repeatRun length n (n - 1)

/-- The header of a block with codes of its own, from the two lists of lengths. -/
def codesHeader (symbolLengths distanceLengths : List Nat) : List Field :=
  let symbols := lengthSymbols (symbolLengths ++ distanceLengths)
  let lengthLengths := codeLengths 7 (countSymbols 19 (symbols.map (·.symbol)))
  let given := trimZeros 4 (lengthOrder.map fun i => lengthLengths.getD i 0)
  let codes := codeFields lengthLengths
  [⟨symbolLengths.length - 257, 5⟩, ⟨distanceLengths.length - 1, 5⟩, ⟨given.length - 4, 4⟩] ++
    given.map (⟨·, 3⟩) ++ symbols.flatMap (·.fields codes)

def fixedBlock (tokens : List Token) : ByteArray :=
  packBits (⟨1, 1⟩ :: ⟨1, 2⟩ ::
    bodyFields fixedSymbolLengths fixedDistanceLengths (tokens.map (·.coded)))

def ownBlock (tokens : List Token) : ByteArray :=
  let body := tokens.map (·.coded)
  let symbolLengths := trimZeros 257 (codeLengths maxCodeLength
    (countSymbols 286 (endOfBlock :: body.map (·.1.symbol))))
  let distanceLengths := trimZeros 1 (codeLengths maxCodeLength
    (countSymbols 30 (body.filterMap fun c => c.2.map (·.symbol))))
  packBits (⟨1, 1⟩ :: ⟨2, 2⟩ :: codesHeader symbolLengths distanceLengths ++
    bodyFields symbolLengths distanceLengths body)

/-- The most bytes of a stored block. -/
def maxStored : Nat := 65535

def storedHeader (last : Bool) (length : Nat) : List UInt8 :=
  [if last then 1 else 0, UInt8.ofNat length, UInt8.ofNat (length / 256),
    UInt8.ofNat (maxStored - length), UInt8.ofNat ((maxStored - length) / 256)]

/-- Stored blocks for the bytes from `start` on. -/
def storeFrom (data : ByteArray) : Nat → Nat → ByteArray → ByteArray
  | 0, _, out => out
  | fuel + 1, start, out =>
    let left := data.size - start
    let count := min left maxStored
    let out := out ++ ⟨(storedHeader (left == count) count).toArray⟩ ++
      data.extract start (start + count)
    if left = count then out else storeFrom data fuel (start + count) out

def storedBlocks (data : ByteArray) : ByteArray :=
  storeFrom data (data.size / maxStored + 1) 0 .empty

def shorter (a b : ByteArray) : ByteArray := if b.size < a.size then b else a

/-- The shortest of the forms tried. Level 0 asks for stored blocks. -/
def deflate (level : Nat) (data : ByteArray) : ByteArray :=
  if level = 0 then storedBlocks data
  else
    let tokens := tokensOf data (effortOf level)
    shorter (shorter (storedBlocks data) (fixedBlock tokens))
      (shorter (ownBlock tokens) (ownBlock (literalsOf data)))

end SealedText.Gzip
