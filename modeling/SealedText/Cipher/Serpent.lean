import SealedText.Cipher.Basic
import SealedText.Cipher.Words

/-!
# Serpent with a 256-bit key

A block is four words, read as 32 columns of four bits. Each of 32 rounds adds a round key, sends every
column through a table of sixteen entries and mixes the words linearly; the last round adds a second
key in place of the mix. `decryptRounds` undoes `encryptRounds` step by step.

A table acts on all columns at once: `minterms` marks, for each of the sixteen values a column can have,
the columns that have it, and `substitute` gathers the marks of the values whose image has a given bit.
-/

namespace SealedText.Serpent

/-- A substitution table on four bits. -/
abbrev Box := List Nat

def boxes : List Box :=
  [[3, 8, 15, 1, 10, 6, 5, 11, 14, 13, 4, 2, 7, 0, 9, 12],
    [15, 12, 2, 7, 9, 0, 5, 10, 1, 11, 14, 8, 6, 13, 3, 4],
    [8, 6, 7, 9, 3, 12, 10, 15, 13, 1, 14, 4, 0, 11, 5, 2],
    [0, 15, 11, 8, 12, 9, 6, 3, 13, 1, 2, 4, 10, 7, 5, 14],
    [1, 15, 8, 3, 12, 0, 11, 6, 2, 5, 4, 10, 9, 14, 7, 13],
    [15, 5, 2, 11, 4, 10, 9, 12, 0, 3, 14, 8, 13, 6, 7, 1],
    [7, 2, 12, 5, 8, 4, 6, 11, 14, 9, 1, 15, 13, 3, 10, 0],
    [1, 13, 15, 0, 14, 8, 2, 11, 7, 4, 12, 10, 9, 3, 5, 6]]

/-- The table that undoes another. -/
def Box.inverse (box : Box) : Box := (List.range 16).map fun value => box.idxOf value

/-- All ones where bit `n` of a table entry is set. -/
def spread (value n : Nat) : UInt32 := if value.testBit n then 0xffffffff else 0

/-- A table with each entry spread over four words. -/
def Box.masks (box : Box) : List Quad :=
  box.map fun value => ⟨spread value 0, spread value 1, spread value 2, spread value 3⟩

def forwardMasks : Array (List Quad) := (boxes.map Box.masks).toArray

def backwardMasks : Array (List Quad) := (boxes.map fun box => box.inverse.masks).toArray

/-- For each value of a column, in order, the columns that hold it. -/
def minterms (s : Quad) : List UInt32 :=
  let low := [~~~s.w1 &&& ~~~s.w0, ~~~s.w1 &&& s.w0, s.w1 &&& ~~~s.w0, s.w1 &&& s.w0]
  let high := [~~~s.w3 &&& ~~~s.w2, ~~~s.w3 &&& s.w2, s.w3 &&& ~~~s.w2, s.w3 &&& s.w2]
  high.flatMap fun h => low.map fun l => h &&& l

/-- Gather the marked columns into the words that the masks name. -/
def gather : List Quad → List UInt32 → Quad → Quad
  | m :: ms, t :: ts, acc =>
    gather ms ts ⟨acc.w0 ||| (m.w0 &&& t), acc.w1 ||| (m.w1 &&& t),
      acc.w2 ||| (m.w2 &&& t), acc.w3 ||| (m.w3 &&& t)⟩
  | _, _, acc => acc

/-- Send every column through the table whose masks are given. -/
def substitute (masks : List Quad) (s : Quad) : Quad := gather masks (minterms s) ⟨0, 0, 0, 0⟩

/-- The linear mix of a round. -/
def mix (s : Quad) : Quad :=
  let x0 := rotateLeft s.w0 13
  let x2 := rotateLeft s.w2 3
  let x1 := rotateLeft (s.w1 ^^^ x0 ^^^ x2) 1
  let x3 := rotateLeft (s.w3 ^^^ x2 ^^^ (x0 <<< 3)) 7
  let x0 := x0 ^^^ x1 ^^^ x3
  let x2 := x2 ^^^ x3 ^^^ (x1 <<< 7)
  ⟨rotateLeft x0 5, x1, rotateLeft x2 22, x3⟩

/-- The linear mix undone. -/
def unmix (s : Quad) : Quad :=
  let x2 := rotateRight s.w2 22
  let x0 := rotateRight s.w0 5
  let x2 := x2 ^^^ s.w3 ^^^ (s.w1 <<< 7)
  let x0 := x0 ^^^ s.w1 ^^^ s.w3
  let x3 := rotateRight s.w3 7 ^^^ x2 ^^^ (x0 <<< 3)
  let x1 := rotateRight s.w1 1 ^^^ x0 ^^^ x2
  ⟨rotateRight x0 13, x1, rotateRight x2 3, x3⟩

/-- The masks of the table for round `n`. -/
def roundMasks (masks : Array (List Quad)) (n : Nat) : List Quad := masks.getD (n % 8) []

/-- The rounds from number `n` on. Two keys are left for the last round, one for each other. -/
def encryptRounds (n : Nat) : List Quad → Quad → Quad
  | [], s => s
  | [k], s => s.xor k
  | [k, last], s => (substitute (roundMasks forwardMasks n) (s.xor k)).xor last
  | k :: ks, s => encryptRounds (n + 1) ks (mix (substitute (roundMasks forwardMasks n) (s.xor k)))

/-- The rounds from number `n` on undone, from the last key to the first. -/
def decryptRounds (n : Nat) : List Quad → Quad → Quad
  | [], s => s
  | [k], s => s.xor k
  | [k, last], s => (substitute (roundMasks backwardMasks n) (s.xor last)).xor k
  | k :: ks, s => (substitute (roundMasks backwardMasks n) (unmix (decryptRounds (n + 1) ks s))).xor k

/-- Word `i` of the stretched key, from the words before it; the first eight are the key. -/
def stretchWord (words : Array UInt32) (i : Nat) : UInt32 :=
  let ago (n : Nat) := words.getD (i + 8 - n) 0
  rotateLeft (ago 8 ^^^ ago 5 ^^^ ago 3 ^^^ ago 1 ^^^ 0x9e3779b9 ^^^ UInt32.ofNat i) 11

/-- The 33 round keys of a 32-byte key. -/
def roundKeys (key : Bytes) : List Quad :=
  let words := (List.range 132).foldl (fun words i => words.push (stretchWord words i))
    (wordsOfBytes key).toArray
  (List.range 33).map fun r =>
    substitute (roundMasks forwardMasks (35 - r))
      ⟨words.getD (4 * r + 8) 0, words.getD (4 * r + 9) 0, words.getD (4 * r + 10) 0,
        words.getD (4 * r + 11) 0⟩

def cipher : BlockCipher where
  name := "Serpent"
  blockSize := 16
  keySize := 32
  keyed key :=
    let keys := roundKeys key
    { encrypt := fun block => (encryptRounds 0 keys (.ofBytes block)).toBytes
      decrypt := fun block => (decryptRounds 0 keys (.ofBytes block)).toBytes }

end SealedText.Serpent
