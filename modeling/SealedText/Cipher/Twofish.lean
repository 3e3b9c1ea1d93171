import SealedText.Cipher.Basic
import SealedText.Cipher.Words

/-!
# Twofish with a 256-bit key

A Feistel cipher of sixteen rounds on four words. The round function keys its byte tables with a word
list drawn from the key, so a key makes its own substitution. Each round only adds a function of one
half to the other, so `decryptRounds` undoes `encryptRounds` whatever that function is.
-/

namespace SealedText.Twofish

/-- The product in the field of 256 elements given by a polynomial of degree eight. -/
def fieldMul (polynomial a b : Nat) : Nat :=
  ((List.range 8).foldl (fun (acc : Nat × Nat) i =>
    let doubled := acc.2 * 2
    (if b.testBit i then acc.1 ^^^ acc.2 else acc.1,
      if doubled.testBit 8 then doubled ^^^ polynomial else doubled)) (0, a)).1

/-- A byte permutation built from four tables on four bits. -/
def bytePermutation (t0 t1 t2 t3 : List Nat) : Array UInt8 :=
  let turn (n : Nat) := n / 2 + n % 2 * 8
  let halve (a b : Nat) := (a ^^^ b, (a ^^^ turn b ^^^ (8 * a)) % 16)
  ((List.range 256).map fun x =>
    let (a, b) := halve (x / 16) (x % 16)
    let (a, b) := halve (t0.getD a 0) (t1.getD b 0)
    UInt8.ofNat (16 * t3.getD b 0 + t2.getD a 0)).toArray

def permutation0 : Array UInt8 := bytePermutation
  [8, 1, 7, 13, 6, 15, 3, 2, 0, 11, 5, 9, 14, 12, 10, 4]
  [14, 12, 11, 8, 1, 2, 3, 5, 15, 4, 10, 6, 7, 0, 9, 13]
  [11, 10, 5, 14, 6, 13, 9, 0, 12, 8, 15, 3, 2, 4, 7, 1]
  [13, 7, 15, 4, 1, 2, 6, 14, 9, 11, 3, 0, 8, 5, 12, 10]

def permutation1 : Array UInt8 := bytePermutation
  [2, 8, 11, 13, 15, 7, 6, 14, 3, 1, 9, 4, 0, 10, 12, 5]
  [1, 14, 2, 11, 4, 12, 3, 7, 6, 13, 10, 5, 15, 9, 0, 8]
  [4, 12, 7, 5, 1, 6, 9, 10, 0, 14, 13, 8, 2, 11, 3, 15]
  [11, 9, 5, 1, 12, 3, 13, 14, 6, 4, 7, 15, 2, 0, 8, 10]

def q0 (b : UInt8) : UInt8 := permutation0.getD b.toNat 0

def q1 (b : UInt8) : UInt8 := permutation1.getD b.toNat 0

/-- The multiples of one column of the diffusion matrix, as words. -/
def diffusionColumn (c0 c1 c2 c3 : Nat) : Array UInt32 :=
  ((List.range 256).map fun x =>
    let part (c : Nat) := UInt8.ofNat (fieldMul 0x169 c x)
    wordOfBytes (part c0) (part c1) (part c2) (part c3)).toArray

def diffusion0 : Array UInt32 := diffusionColumn 0x01 0x5b 0xef 0xef

def diffusion1 : Array UInt32 := diffusionColumn 0xef 0xef 0x5b 0x01

def diffusion2 : Array UInt32 := diffusionColumn 0x5b 0xef 0x01 0xef

def diffusion3 : Array UInt32 := diffusionColumn 0x5b 0x01 0xef 0x5b

def byte0 (w : UInt32) : UInt8 := w.toUInt8

def byte1 (w : UInt32) : UInt8 := (w >>> 8).toUInt8

def byte2 (w : UInt32) : UInt8 := (w >>> 16).toUInt8

def byte3 (w : UInt32) : UInt8 := (w >>> 24).toUInt8

/-- The keyed substitution of a word, under four key words. -/
def keyedWord (x : UInt32) (l : Quad) : UInt32 :=
  let y0 := q1 (byte0 x) ^^^ byte0 l.w3
  let y1 := q0 (byte1 x) ^^^ byte1 l.w3
  let y2 := q0 (byte2 x) ^^^ byte2 l.w3
  let y3 := q1 (byte3 x) ^^^ byte3 l.w3
  let y0 := q1 y0 ^^^ byte0 l.w2
  let y1 := q1 y1 ^^^ byte1 l.w2
  let y2 := q0 y2 ^^^ byte2 l.w2
  let y3 := q0 y3 ^^^ byte3 l.w2
  let y0 := q1 (q0 (q0 y0 ^^^ byte0 l.w1) ^^^ byte0 l.w0)
  let y1 := q0 (q0 (q1 y1 ^^^ byte1 l.w1) ^^^ byte1 l.w0)
  let y2 := q1 (q1 (q0 y2 ^^^ byte2 l.w1) ^^^ byte2 l.w0)
  let y3 := q0 (q1 (q1 y3 ^^^ byte3 l.w1) ^^^ byte3 l.w0)
  diffusion0.getD y0.toNat 0 ^^^ diffusion1.getD y1.toNat 0 ^^^
    diffusion2.getD y2.toNat 0 ^^^ diffusion3.getD y3.toNat 0

/-- The rows of the code that draws a substitution word from eight key bytes. -/
def codeRows : List (List Nat) :=
  [[0x01, 0xa4, 0x55, 0x87, 0x5a, 0x58, 0xdb, 0x9e],
    [0xa4, 0x56, 0x82, 0xf3, 0x1e, 0xc6, 0x68, 0xe5],
    [0x02, 0xa1, 0xfc, 0xc1, 0x47, 0xae, 0x3d, 0x19],
    [0xa4, 0x55, 0x87, 0x5a, 0x58, 0xdb, 0x9e, 0x03]]

def codeWord (eight : Bytes) : UInt32 :=
  let part (row : Nat) := UInt8.ofNat
    ((List.zipWith (fun c b => fieldMul 0x14d c b.toNat) (codeRows.getD row []) eight).foldl
      (· ^^^ ·) 0)
  wordOfBytes (part 0) (part 1) (part 2) (part 3)

/-- Whitening keys for input and output, two round keys for each round, and the substitution words. -/
structure Schedule where
  input : Quad
  output : Quad
  rounds : List (UInt32 × UInt32)
  words : Quad

/-- Two neighbouring subkeys. -/
def subkeys (even odd : Quad) (i : Nat) : UInt32 × UInt32 :=
  let a := keyedWord (UInt32.ofNat (2 * i) * 0x01010101) even
  let b := rotateLeft (keyedWord (UInt32.ofNat (2 * i + 1) * 0x01010101) odd) 8
  (a + b, rotateLeft (a + 2 * b) 9)

def schedule (key : Bytes) : Schedule :=
  let words := (wordsOfBytes key).toArray
  let word (i : Nat) := words.getD i 0
  let even : Quad := ⟨word 0, word 2, word 4, word 6⟩
  let odd : Quad := ⟨word 1, word 3, word 5, word 7⟩
  let drawn (i : Nat) := codeWord ((key.drop (8 * i)).take 8)
  let pair (i : Nat) : Quad :=
    let (k0, k1) := subkeys even odd i
    let (k2, k3) := subkeys even odd (i + 1)
    ⟨k0, k1, k2, k3⟩
  { input := pair 0
    output := pair 2
    rounds := (List.range 16).map fun r => subkeys even odd (r + 4)
    words := ⟨drawn 3, drawn 2, drawn 1, drawn 0⟩ }

/-- The two words that a round adds, from the left half and the round keys. -/
def roundFunction (words : Quad) (keys : UInt32 × UInt32) (left0 left1 : UInt32) : UInt32 × UInt32 :=
  let t0 := keyedWord left0 words
  let t1 := keyedWord (rotateLeft left1 8) words
  (t0 + t1 + keys.1, t0 + 2 * t1 + keys.2)

/-- The rounds, one per key pair. The halves change places after each. -/
def encryptRounds (words : Quad) : List (UInt32 × UInt32) → Quad → Quad
  | [], s => s
  | keys :: rest, s =>
    let f := roundFunction words keys s.w0 s.w1
    encryptRounds words rest
      ⟨rotateRight (s.w2 ^^^ f.1) 1, rotateLeft s.w3 1 ^^^ f.2, s.w0, s.w1⟩

/-- The rounds undone, from the last key pair to the first. -/
def decryptRounds (words : Quad) : List (UInt32 × UInt32) → Quad → Quad
  | [], s => s
  | keys :: rest, s =>
    let s := decryptRounds words rest s
    let f := roundFunction words keys s.w2 s.w3
    ⟨s.w2, s.w3, rotateLeft s.w0 1 ^^^ f.1, rotateRight (s.w1 ^^^ f.2) 1⟩

/-- The halves exchanged. -/
def swap (s : Quad) : Quad := ⟨s.w2, s.w3, s.w0, s.w1⟩

def encryptQuad (k : Schedule) (s : Quad) : Quad :=
  (swap (encryptRounds k.words k.rounds (s.xor k.input))).xor k.output

def decryptQuad (k : Schedule) (s : Quad) : Quad :=
  (decryptRounds k.words k.rounds (swap (s.xor k.output))).xor k.input

def cipher : BlockCipher where
  name := "Twofish"
  blockSize := 16
  keySize := 32
  keyed key :=
    let keys := schedule key
    { encrypt := fun block => (encryptQuad keys (.ofBytes block)).toBytes
      decrypt := fun block => (decryptQuad keys (.ofBytes block)).toBytes }

end SealedText.Twofish
