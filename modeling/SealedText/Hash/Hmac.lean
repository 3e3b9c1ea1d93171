import SealedText.Hash.Sha256

/-!
# HMAC, PBKDF2 and HKDF over SHA-256

A keyed hash is two hashes with the key in front, so the state after each key block is worked out once
per key. PBKDF2 stretches a password by feeding each 32-byte result back in; `Key.step` is that case,
where message and padding make a single block. HKDF extracts one key from a secret and expands it into
as many bytes as are asked for.
-/

namespace SealedText.Hmac

open Sha256 (Digest)

/-- The inner and outer states after the key block. -/
structure Key where
  inner : Digest
  outer : Digest

namespace Key

/-- Keys longer than a block are hashed first; the rest is filled up with zeros. -/
def ofBytes (key : Bytes) : Key :=
  let key := if key.length > 64 then Sha256.hash key else key
  let key := key ++ List.replicate (64 - key.length) 0
  let state (mask : UInt8) :=
    Sha256.compress Sha256.initial (Sha256.words (key.map (· ^^^ mask))).toArray
  ⟨state 0x36, state 0x5c⟩

/-- The block of a 32-byte message that follows a key block. -/
def blockOf (d : Digest) : Array UInt32 := #[d.h0, d.h1, d.h2, d.h3, d.h4, d.h5, d.h6, d.h7,
  0x80000000, 0, 0, 0, 0, 0, 0, 768]

/-- The keyed hash of a 32-byte message. -/
def step (k : Key) (d : Digest) : Digest :=
  Sha256.compress k.outer (blockOf (Sha256.compress k.inner (blockOf d)))

/-- The keyed hash of a message. -/
def mac (k : Key) (message : Bytes) : Digest :=
  Sha256.compress k.outer (blockOf (Sha256.finish k.inner 64 message))

end Key

/-- Bytes from the digests of blocks 1, 2, … -/
def collect (length : Nat) (block : Nat → Digest) : Bytes :=
  ((List.range ((length + 31) / 32)).flatMap fun i => (block (i + 1)).toBytes).take length

theorem length_collect (length : Nat) (block : Nat → Digest) :
    (collect length block).length = length := by
  simp only [collect, List.length_take, List.length_flatMap, Digest.length_toBytes]
  simp only [List.map_const', List.length_range, List.sum_replicate_nat]
  omega

end SealedText.Hmac

namespace SealedText.Pbkdf2

open Sha256 (Digest)

def xorDigest (a b : Digest) : Digest :=
  ⟨a.h0 ^^^ b.h0, a.h1 ^^^ b.h1, a.h2 ^^^ b.h2, a.h3 ^^^ b.h3,
    a.h4 ^^^ b.h4, a.h5 ^^^ b.h5, a.h6 ^^^ b.h6, a.h7 ^^^ b.h7⟩

/-- `n` further rounds after the value `last`, all added to `sum`. -/
def stretch (k : Hmac.Key) : Nat → Digest → Digest → Digest
  | 0, _, sum => sum
  | n + 1, last, sum =>
    let next := k.step last
    stretch k n next (xorDigest sum next)

/-- `length` bytes from a password and a salt. No iterations count as one. -/
def derive (password salt : Bytes) (iterations length : Nat) : Bytes :=
  let k := Hmac.Key.ofBytes password
  Hmac.collect length fun i =>
    let first := k.mac (salt ++ Bytes.ofNat 4 i)
    stretch k (iterations - 1) first first

theorem length_derive (password salt : Bytes) (iterations length : Nat) :
    (derive password salt iterations length).length = length := by
  rw [derive, Hmac.length_collect]

end SealedText.Pbkdf2

namespace SealedText.Hkdf

open Sha256 (Digest)

/-- The key drawn from a secret, without a salt. -/
def extract (secret : Bytes) : Hmac.Key :=
  .ofBytes ((Hmac.Key.ofBytes (List.replicate 32 0)).mac secret).toBytes

/-- Block `i` of the output for a purpose, from block `i - 1`; block 0 is empty. -/
def block (k : Hmac.Key) (purpose : Bytes) : Nat → Bytes
  | 0 => []
  | i + 1 => (k.mac (block k purpose i ++ purpose ++ Bytes.ofNat 1 (i + 1))).toBytes

/-- `length` bytes for a purpose, for lengths up to 255 blocks. -/
def expand (k : Hmac.Key) (purpose : Bytes) (length : Nat) : Bytes :=
  ((List.range ((length + 31) / 32)).flatMap fun i => block k purpose (i + 1)).take length

theorem length_expand (k : Hmac.Key) (purpose : Bytes) (length : Nat) :
    (expand k purpose length).length = length := by
  simp only [expand, List.length_take, List.length_flatMap, block, Digest.length_toBytes]
  simp only [List.map_const', List.length_range, List.sum_replicate_nat]
  omega

end SealedText.Hkdf
