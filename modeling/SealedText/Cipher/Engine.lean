import SealedText.Cipher.Basic

/-!
# Engines and cascades

An engine is a block cipher in use: it is keyed for one direction, processes blocks one at a time and
can be cleared. A cascade chains three engines of one block size into a larger one. Its key is the keys
of its stages one after another, in stage order; encrypting runs the stages from first to last and
decrypting from last to first.

Keying a cascade keys its stages in order and stops at the first that refuses, so a failure can leave
some stages with a new key and others with an old one. The cascade then counts as unkeyed, and
`Engine.run` refuses every block until it has been keyed as a whole.
-/

namespace SealedText

/-- A single cipher in use. `refuses n` says that call number `n` to key it fails whatever the key,
as a call to a device may; most stages refuse nothing. -/
structure Stage where
  cipher : BlockCipher
  refuses : Nat → Bool := fun _ => false
  calls : Nat := 0
  held : Option (Direction × KeyedCipher) := none

inductive Engine
  | stage (s : Stage)
  /-- `keyed` is the direction of the last successful `setKey`, none before it and after a failure. -/
  | cascade (first second third : Engine) (keyed : Option Direction)

namespace Engine

/-- A fresh engine for one cipher. -/
def ofCipher (cipher : BlockCipher) : Engine := .stage { cipher }

def name : Engine → String
  | .stage s => s.cipher.name
  | .cascade .. => "Cascade"

def blockSize : Engine → Nat
  | .stage s => s.cipher.blockSize
  | .cascade first .. => first.blockSize

def keySize : Engine → Nat
  | .stage s => s.cipher.keySize
  | .cascade first second third _ => first.keySize + second.keySize + third.keySize

/-- Chain three engines. Those that disagree on the block size cannot be chained. -/
def chain (first second third : Engine) : Except CipherError Engine :=
  if second.blockSize ≠ first.blockSize then
    .error (.unequalBlocks first.blockSize second.blockSize)
  else if third.blockSize ≠ first.blockSize then
    .error (.unequalBlocks first.blockSize third.blockSize)
  else .ok (.cascade first second third none)

/-- The error for a key of the wrong length. -/
def wrongKey (e : Engine) (key : Bytes) : CipherError := .refusedKey e.name e.keySize key.length

/-- Key an engine and fix its direction. The engine after the call comes with the error, if any. -/
def setKey (e : Engine) (direction : Direction) (key : Bytes) : Engine × Option CipherError :=
  match e with
  | .stage s =>
    let tried := { s with calls := s.calls + 1 }
    if s.refuses s.calls || key.length ≠ s.cipher.keySize then
      (.stage tried, some (wrongKey (.stage s) key))
    else (.stage { tried with held := some (direction, s.cipher.keyed key) }, none)
  | .cascade first second third keyed =>
    if key.length ≠ first.keySize + second.keySize + third.keySize then
      (.cascade first second third keyed, some (wrongKey (.cascade first second third keyed) key))
    else
      match first.setKey direction (key.take first.keySize) with
      | (first₁, some e) => (.cascade first₁ second third none, some e)
      | (first₁, none) =>
        match second.setKey direction ((key.drop first.keySize).take second.keySize) with
        | (second₁, some e) => (.cascade first₁ second₁ third none, some e)
        | (second₁, none) =>
          match third.setKey direction (key.drop (first.keySize + second.keySize)) with
          | (third₁, some e) => (.cascade first₁ second₁ third₁ none, some e)
          | (third₁, none) => (.cascade first₁ second₁ third₁ (some direction), none)

/-- Drop every key. -/
def clear : Engine → Engine
  | .stage s => .stage { s with held := none }
  | .cascade first second third _ => .cascade first.clear second.clear third.clear none

/-- Process a block in place: the buffer after the call, and the error that stopped it, if any. -/
def run (e : Engine) (buffer : Bytes) : Bytes × Option CipherError :=
  match e with
  | .stage s =>
    match s.held with
    | none => (buffer, some (.unkeyed s.cipher.name))
    | some (direction, k) =>
      if buffer.length ≠ s.cipher.blockSize then
        (buffer, some (.badLength buffer.length s.cipher.blockSize))
      else (k.run direction buffer, none)
  | .cascade first second third keyed =>
    match keyed with
    | none => (buffer, some (.unkeyed "Cascade"))
    | some .encrypting =>
      match first.run buffer with
      | (buffer, some e) => (buffer, some e)
      | (buffer, none) =>
        match second.run buffer with
        | (buffer, some e) => (buffer, some e)
        | (buffer, none) => third.run buffer
    | some .decrypting =>
      match third.run buffer with
      | (buffer, some e) => (buffer, some e)
      | (buffer, none) =>
        match second.run buffer with
        | (buffer, some e) => (buffer, some e)
        | (buffer, none) => first.run buffer

/-- The processed block, or the error. -/
def process (e : Engine) (block : Bytes) : Except CipherError Bytes :=
  match e.run block with
  | (out, none) => .ok out
  | (_, some err) => .error err

/-- An engine keyed from fresh, or the error of keying it. -/
def keyedWith (e : Engine) (direction : Direction) (key : Bytes) : Except CipherError Engine :=
  match e.setKey direction key with
  | (e, none) => .ok e
  | (_, some err) => .error err

end Engine

end SealedText
