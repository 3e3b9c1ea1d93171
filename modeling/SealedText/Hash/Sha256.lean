import SealedText.Bytes

/-!
# SHA-256

The hash reads a padded message in blocks of sixteen words, most significant byte first. `compress` takes
one block into a state of eight words. Key derivation runs it hundreds of thousands of times, so the words
of a block are an array and the rounds a loop over machine words.
-/

namespace SealedText.Sha256

/-- The eight words of a state or of a result. -/
structure Digest where
  h0 : UInt32
  h1 : UInt32
  h2 : UInt32
  h3 : UInt32
  h4 : UInt32
  h5 : UInt32
  h6 : UInt32
  h7 : UInt32
  deriving DecidableEq, Inhabited

/-- The first fractional bits of the square roots of the first eight primes. -/
def initial : Digest :=
  ⟨0x6a09e667, 0xbb67ae85, 0x3c6ef372, 0xa54ff53a,
    0x510e527f, 0x9b05688c, 0x1f83d9ab, 0x5be0cd19⟩

/-- The first fractional bits of the cube roots of the first 64 primes. -/
def constants : Array UInt32 := #[
  0x428a2f98, 0x71374491, 0xb5c0fbcf, 0xe9b5dba5, 0x3956c25b, 0x59f111f1, 0x923f82a4, 0xab1c5ed5,
  0xd807aa98, 0x12835b01, 0x243185be, 0x550c7dc3, 0x72be5d74, 0x80deb1fe, 0x9bdc06a7, 0xc19bf174,
  0xe49b69c1, 0xefbe4786, 0x0fc19dc6, 0x240ca1cc, 0x2de92c6f, 0x4a7484aa, 0x5cb0a9dc, 0x76f988da,
  0x983e5152, 0xa831c66d, 0xb00327c8, 0xbf597fc7, 0xc6e00bf3, 0xd5a79147, 0x06ca6351, 0x14292967,
  0x27b70a85, 0x2e1b2138, 0x4d2c6dfc, 0x53380d13, 0x650a7354, 0x766a0abb, 0x81c2c92e, 0x92722c85,
  0xa2bfe8a1, 0xa81a664b, 0xc24b8b70, 0xc76c51a3, 0xd192e819, 0xd6990624, 0xf40e3585, 0x106aa070,
  0x19a4c116, 0x1e376c08, 0x2748774c, 0x34b0bcb5, 0x391c0cb3, 0x4ed8aa4a, 0x5b9cca4f, 0x682e6ff3,
  0x748f82ee, 0x78a5636f, 0x84c87814, 0x8cc70208, 0x90befffa, 0xa4506ceb, 0xbef9a3f7, 0xc67178f2]

@[inline] def rotate (w n : UInt32) : UInt32 := (w >>> n) ||| (w <<< (32 - n))

/-- Words 16 to 63 of the schedule, each from words before it. -/
def extend : Nat → Array UInt32 → Array UInt32
  | 0, w => w
  | n + 1, w =>
    let t := w.size
    let w2 := w.getD (t - 2) 0
    let w15 := w.getD (t - 15) 0
    let s1 := rotate w2 17 ^^^ rotate w2 19 ^^^ (w2 >>> 10)
    let s0 := rotate w15 7 ^^^ rotate w15 18 ^^^ (w15 >>> 3)
    extend n (w.push (s1 + w.getD (t - 7) 0 + s0 + w.getD (t - 16) 0))

/-- The last `n` of the 64 rounds. -/
def rounds (w : Array UInt32) : Nat → (a b c d e f g h : UInt32) → Digest
  | 0, a, b, c, d, e, f, g, h => ⟨a, b, c, d, e, f, g, h⟩
  | n + 1, a, b, c, d, e, f, g, h =>
    let t := 63 - n
    let s1 := rotate e 6 ^^^ rotate e 11 ^^^ rotate e 25
    let choice := (e &&& f) ^^^ (~~~e &&& g)
    let t1 := h + s1 + choice + constants.getD t 0 + w.getD t 0
    let s0 := rotate a 2 ^^^ rotate a 13 ^^^ rotate a 22
    let majority := (a &&& b) ^^^ (a &&& c) ^^^ (b &&& c)
    rounds w n (t1 + (s0 + majority)) a b c (d + t1) e f g

def compress (s : Digest) (block : Array UInt32) : Digest :=
  let r := rounds (extend 48 block) 64 s.h0 s.h1 s.h2 s.h3 s.h4 s.h5 s.h6 s.h7
  ⟨s.h0 + r.h0, s.h1 + r.h1, s.h2 + r.h2, s.h3 + r.h3,
    s.h4 + r.h4, s.h5 + r.h5, s.h6 + r.h6, s.h7 + r.h7⟩

/-- The word of four bytes, most significant first. -/
def wordOf (a b c d : UInt8) : UInt32 :=
  (a.toUInt32 <<< 24) ||| (b.toUInt32 <<< 16) ||| (c.toUInt32 <<< 8) ||| d.toUInt32

def wordBytes (w : UInt32) : Bytes :=
  [(w >>> 24).toUInt8, (w >>> 16).toUInt8, (w >>> 8).toUInt8, w.toUInt8]

def words : Bytes → List UInt32
  | a :: b :: c :: d :: rest => wordOf a b c d :: words rest
  | _ => []

def Digest.toBytes (s : Digest) : Bytes :=
  wordBytes s.h0 ++ wordBytes s.h1 ++ wordBytes s.h2 ++ wordBytes s.h3 ++
    wordBytes s.h4 ++ wordBytes s.h5 ++ wordBytes s.h6 ++ wordBytes s.h7

theorem Digest.length_toBytes (s : Digest) : s.toBytes.length = 32 := rfl

/-- What follows a message of `length` bytes: a one bit, zeros up to a whole block less eight bytes, and
the length in bits. -/
def padding (length : Nat) : Bytes :=
  0x80 :: List.replicate ((119 - length % 64) % 64) 0 ++ Bytes.ofNat 8 (length * 8)

/-- The state after the rest of a message whose first `done` bytes, whole blocks, led to state `s`. -/
def finish (s : Digest) (done : Nat) (rest : Bytes) : Digest :=
  (blocksOf 16 (words (rest ++ padding (done + rest.length)))).foldl
    (fun s block => compress s block.toArray) s

/-- The hash of a message, 32 bytes. -/
def hash (message : Bytes) : Bytes := (finish initial 0 message).toBytes

end SealedText.Sha256
