import SealedText.Bytes

/-!
# Block ciphers

A block cipher turns a key into a pair of functions on blocks, one for each direction. The modes and
the envelope never name a cipher: they are written for any `BlockCipher`, and what they need of it is
`BlockCipher.Lawful`, that under every key the two directions undo each other on whole blocks.
-/

namespace SealedText

inductive Direction
  | encrypting
  | decrypting
  deriving DecidableEq, Repr

/-- What a block cipher does under one key. -/
structure KeyedCipher where
  encrypt : Bytes → Bytes
  decrypt : Bytes → Bytes

def KeyedCipher.run (k : KeyedCipher) : Direction → Bytes → Bytes
  | .encrypting => k.encrypt
  | .decrypting => k.decrypt

/-- A block cipher with its name and sizes in bytes. The key schedule is worked out once, by `keyed`. -/
structure BlockCipher where
  name : String
  blockSize : Nat
  keySize : Nat
  keyed : Bytes → KeyedCipher

/-- Under every key of the right length, both directions map blocks to blocks and undo each other. -/
structure BlockCipher.Lawful (c : BlockCipher) : Prop where
  length_encrypt : ∀ key block, key.length = c.keySize → block.length = c.blockSize →
    ((c.keyed key).encrypt block).length = c.blockSize
  length_decrypt : ∀ key block, key.length = c.keySize → block.length = c.blockSize →
    ((c.keyed key).decrypt block).length = c.blockSize
  decrypt_encrypt : ∀ key block, key.length = c.keySize → block.length = c.blockSize →
    (c.keyed key).decrypt ((c.keyed key).encrypt block) = block
  encrypt_decrypt : ∀ key block, key.length = c.keySize → block.length = c.blockSize →
    (c.keyed key).encrypt ((c.keyed key).decrypt block) = block

/-- Why an engine or a mode refuses its input. -/
inductive CipherError
  | refusedKey (algorithm : String) (expected actual : Nat)
  | unequalBlocks (first other : Nat)
  | unkeyed (algorithm : String)
  | badLength (actual blockSize : Nat)
  | wrongPadding
  deriving DecidableEq, Repr

def CipherError.message : CipherError → String
  | refusedKey algorithm expected actual =>
    s!"invalid key for {algorithm}: expected {expected} bytes, got {actual}"
  | unequalBlocks first other =>
    s!"cascade sub-ciphers disagree on block size: {first} vs {other}"
  | unkeyed algorithm => s!"{algorithm} used before init"
  | badLength actual blockSize =>
    s!"data length {actual} is not valid here (block size {blockSize})"
  | wrongPadding => "bad padding"

end SealedText
