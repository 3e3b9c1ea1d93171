import SealedText.Gzip.Huffman

/-!
# Inflating

Compressed data is a row of blocks: stored bytes, or symbols of a prefix code that stand for single bytes
and for copies of earlier output. `step` reads one block header, one run of stored bytes or one symbol;
`run` repeats it until the last block is done or enough output is there, so bytes beyond the limit are
never looked at. The output is preceded by zeros as far as a copy may reach back.

Two things can go wrong: the data ends too early, or it breaks a rule of the format.
-/

namespace SealedText.Gzip

inductive DeflateFault
  | incomplete
  | corrupt
  deriving DecidableEq, Repr

/-- The byte at an index, 0 past the end. -/
def byteAt (data : ByteArray) (i : Nat) : Nat := if h : i < data.size then data[i].toNat else 0

/-- The number of up to 16 bits at a bit position, least significant first. -/
def readBits (data : ByteArray) (pos count : Nat) : Except DeflateFault Nat :=
  if pos + count > 8 * data.size then .error .incomplete
  else
    let i := pos / 8
    let window := byteAt data i + byteAt data (i + 1) * 256 + byteAt data (i + 2) * 65536
    .ok ((window >>> (pos % 8)) % (1 <<< count))

/-- Follow the bits from a position down a tree: the symbol and the position after it. -/
def walk (data : ByteArray) : CodeTree → Nat → Except DeflateFault (Nat × Nat)
  | .none, _ => .error .corrupt
  | .symbol n, pos => .ok (n, pos)
  | .branch zero one, pos =>
    if pos < 8 * data.size then
      if (byteAt data (pos / 8)).testBit (pos % 8) then walk data one (pos + 1)
      else walk data zero (pos + 1)
    else .error .incomplete

/-- The symbol at a position. A code without words fails only where there is a bit to read. -/
def readSymbol (data : ByteArray) (t : CodeTree) (pos : Nat) : Except DeflateFault (Nat × Nat) :=
  if pos < 8 * data.size then walk data t pos else .error .incomplete

inductive Mode
  | header
  | stored (left : Nat)
  | coded (symbols distances : CodeTree)
  | finished
  deriving Inhabited

structure InflateState where
  pos : Nat
  out : ByteArray
  mode : Mode
  /-- The current block is the last. -/
  last : Bool

def modeAfterBlock (last : Bool) : Mode := if last then .finished else .header

def fixedSymbolLengths : List Nat :=
  List.replicate 144 8 ++ List.replicate 112 9 ++ List.replicate 24 7 ++ List.replicate 8 8

def fixedDistanceLengths : List Nat := List.replicate 32 5

def fixedSymbols : CodeTree := .ofLengths fixedSymbolLengths

def fixedDistances : CodeTree := .ofLengths fixedDistanceLengths

/-- The order in which a block header gives the lengths of the code for lengths. -/
def lengthOrder : List Nat := [16, 17, 18, 0, 8, 7, 9, 6, 10, 5, 11, 4, 12, 3, 13, 2, 14, 1, 15]

/-- `count` numbers of three bits each, and the position after them. -/
def readTriples (data : ByteArray) (pos : Nat) : Nat → Except DeflateFault (List Nat × Nat)
  | 0 => .ok ([], pos)
  | count + 1 => do
    let n ← readBits data pos 3
    let (rest, pos) ← readTriples data (pos + 3) count
    return (n :: rest, pos)

/-- Read code lengths until there are `total`: single lengths, repeats of the last one, runs of 0. -/
def readLengths (data : ByteArray) (t : CodeTree) (total : Nat) :
    Nat → Nat → Array Nat → Except DeflateFault (Array Nat × Nat)
  | 0, _, _ => .error .corrupt
  | fuel + 1, pos, lengths =>
    if lengths.size = total then .ok (lengths, pos)
    else if lengths.size > total then .error .corrupt
    else do
      let (sym, pos) ← readSymbol data t pos
      if sym < 16 then readLengths data t total fuel pos (lengths.push sym)
      else if sym = 16 then
        if lengths.isEmpty then throw .corrupt
        let n ← readBits data pos 2
        readLengths data t total fuel (pos + 2)
          (lengths ++ Array.replicate (3 + n) (lengths.getD (lengths.size - 1) 0))
      else if sym = 17 then
        let n ← readBits data pos 3
        readLengths data t total fuel (pos + 3) (lengths ++ Array.replicate (3 + n) 0)
      else
        let n ← readBits data pos 7
        readLengths data t total fuel (pos + 7) (lengths ++ Array.replicate (11 + n) 0)

/-- The two codes that a block header describes, and the position after it. -/
def readCodes (data : ByteArray) (pos : Nat) :
    Except DeflateFault (CodeTree × CodeTree × Nat) := do
  let symbolCount := (← readBits data pos 5) + 257
  let distanceCount := (← readBits data (pos + 5) 5) + 1
  let lengthCount := (← readBits data (pos + 10) 4) + 4
  if symbolCount > 286 || distanceCount > 30 then throw .corrupt
  let (triples, pos) ← readTriples data (pos + 14) lengthCount
  let given := lengthOrder.zip triples
  let lengthLengths := (List.range 19).map fun sym => (given.lookup sym).getD 0
  if !isComplete lengthLengths then throw .corrupt
  let total := symbolCount + distanceCount
  let (lengths, pos) ← readLengths data (.ofLengths lengthLengths) total (total + 1) pos #[]
  let symbolLengths := lengths.toList.take symbolCount
  let distanceLengths := lengths.toList.drop symbolCount
  if !isUsable symbolLengths || !isUsable distanceLengths then throw .corrupt
  return (.ofLengths symbolLengths, .ofLengths distanceLengths, pos)

/-- Base and extra bits of the copy lengths, by symbol from 257 on. -/
def copyLengths : Array (Nat × Nat) := #[(3, 0), (4, 0), (5, 0), (6, 0), (7, 0), (8, 0), (9, 0),
  (10, 0), (11, 1), (13, 1), (15, 1), (17, 1), (19, 2), (23, 2), (27, 2), (31, 2), (35, 3), (43, 3),
  (51, 3), (59, 3), (67, 4), (83, 4), (99, 4), (115, 4), (131, 5), (163, 5), (195, 5), (227, 5),
  (258, 0)]

/-- Base and extra bits of the copy distances, by symbol. -/
def copyDistances : Array (Nat × Nat) := #[(1, 0), (2, 0), (3, 0), (4, 0), (5, 1), (7, 1), (9, 2),
  (13, 2), (17, 3), (25, 3), (33, 4), (49, 4), (65, 5), (97, 5), (129, 6), (193, 6), (257, 7),
  (385, 7), (513, 8), (769, 8), (1025, 9), (1537, 9), (2049, 10), (3073, 10), (4097, 11),
  (6145, 11), (8193, 12), (12289, 12), (16385, 13), (24577, 13)]

/-- Append bytes from `distance` back, one at a time, so a copy may run into itself. -/
def copyBack (out : ByteArray) (distance : Nat) : Nat → ByteArray
  | 0 => out
  | count + 1 =>
    let b := if distance ≤ out.size then out.get! (out.size - distance) else 0
    copyBack (out.push b) distance count

/-- Read a block header. -/
def readHeader (data : ByteArray) (s : InflateState) : Except DeflateFault InflateState := do
  let last := (← readBits data s.pos 1) == 1
  let kind ← readBits data (s.pos + 1) 2
  let pos := s.pos + 3
  if kind = 0 then
    let pos := (pos + 7) / 8 * 8
    let length ← readBits data pos 16
    let complement ← readBits data (pos + 16) 16
    if length + complement ≠ 65535 then throw .corrupt
    let mode := if length = 0 then modeAfterBlock last else .stored length
    return { s with pos := pos + 32, mode, last }
  else if kind = 1 then return { s with pos, mode := .coded fixedSymbols fixedDistances, last }
  else if kind = 2 then
    let (symbols, distances, pos) ← readCodes data pos
    return { s with pos, mode := .coded symbols distances, last }
  else throw .corrupt

/-- Read one symbol of a coded block, with the copy it may start. -/
def readCoded (data : ByteArray) (symbols distances : CodeTree) (s : InflateState) :
    Except DeflateFault InflateState := do
  let (sym, pos) ← readSymbol data symbols s.pos
  if sym < 256 then return { s with pos, out := s.out.push (UInt8.ofNat sym) }
  else if sym = 256 then return { s with pos, mode := modeAfterBlock s.last }
  else
    match copyLengths[sym - 257]? with
    | none => throw .corrupt
    | some (base, extra) =>
      let count := base + (← readBits data pos extra)
      let (distanceSym, pos) ← readSymbol data distances (pos + extra)
      match copyDistances[distanceSym]? with
      | none => throw .corrupt
      | some (base, extra) =>
        let distance := base + (← readBits data pos extra)
        return { s with pos := pos + extra, out := copyBack s.out distance count }

/-- Read one piece of the data. -/
def step (data : ByteArray) (s : InflateState) : Except DeflateFault InflateState :=
  match s.mode with
  | .header => readHeader data s
  | .stored left =>
    let start := s.pos / 8
    let count := min left (data.size - start)
    if count = 0 then .error .incomplete
    else
      let mode := if count = left then modeAfterBlock s.last else .stored (left - count)
      .ok { s with pos := s.pos + 8 * count, out := s.out ++ data.extract start (start + count), mode }
  | .coded symbols distances => readCoded data symbols distances s
  | .finished => .ok s

/-- Repeat `step` until the last block is done or the output has `limit` bytes. -/
def run (data : ByteArray) (limit : Nat) : Nat → InflateState → Except DeflateFault InflateState
  | 0, s => .ok s
  | fuel + 1, s =>
    if limit ≤ s.out.size then .ok s
    else
      match s.mode with
      | .finished => .ok s
      | _ =>
        match step data s with
        | .error e => .error e
        | .ok s => run data limit fuel s

/-- Inflate the data that starts at a byte. Each step but the last reads a bit, so as many steps as there
are bits are enough. -/
def inflate (data : ByteArray) (start limit : Nat) : Except DeflateFault InflateState :=
  run data limit (8 * data.size + 1)
    { pos := 8 * start, out := .empty, mode := .header, last := false }

end SealedText.Gzip
