import SealedText.Cipher.Engine

/-!
# Cipher block chaining

`Engine.chainEncrypt` pads a message to whole blocks and encrypts them one after another, each masked
with the ciphertext block before it and the first with the initialization vector. `Engine.chainDecrypt`
goes back and strips the padding.

The padding is one to `blockSize` bytes, each holding their number. Where that number does not fit a byte
only its low eight bits are written, so such a message does not read back.
-/

namespace SealedText

/-- How many bytes `pad` adds. -/
def padLength (blockSize length : Nat) : Nat := blockSize - length % blockSize

def pad (blockSize : Nat) (message : Bytes) : Bytes :=
  let n := padLength blockSize message.length
  message ++ List.replicate n (UInt8.ofNat n)

/-- The message before its padding: the last byte says how long the padding is, and all of the padding
has to agree with it. -/
def unpad? (blockSize : Nat) (padded : Bytes) : Option Bytes :=
  let mark := padded.getLastD 0
  let n := mark.toNat
  if n = 0 ∨ n > blockSize then none
  else if (padded.drop (padded.length - n)).all (· == mark) then
    some (padded.take (padded.length - n))
  else none

namespace Engine

def encryptBlocks (e : Engine) (chain : Bytes) : List Bytes → Except CipherError (List Bytes)
  | [] => .ok []
  | block :: rest => do
    let out ← e.process (block.xor chain)
    let outs ← e.encryptBlocks out rest
    return out :: outs

def decryptBlocks (e : Engine) (chain : Bytes) : List Bytes → Except CipherError (List Bytes)
  | [] => .ok []
  | block :: rest => do
    let out ← e.process block
    let outs ← e.decryptBlocks block rest
    return out.xor chain :: outs

/-- Encrypt a message with an engine keyed for it. -/
def chainEncrypt (e : Engine) (iv message : Bytes) : Except CipherError Bytes := do
  if iv.length ≠ e.blockSize then throw (.badLength iv.length e.blockSize)
  let blocks ← e.encryptBlocks iv (blocksOf e.blockSize (pad e.blockSize message))
  return blocks.flatten

/-- Decrypt a ciphertext with an engine keyed for it. -/
def chainDecrypt (e : Engine) (iv ciphertext : Bytes) : Except CipherError Bytes := do
  if iv.length ≠ e.blockSize then throw (.badLength iv.length e.blockSize)
  if ciphertext.isEmpty || ciphertext.length % e.blockSize ≠ 0 then
    throw (.badLength ciphertext.length e.blockSize)
  let blocks ← e.decryptBlocks iv (blocksOf e.blockSize ciphertext)
  match unpad? e.blockSize blocks.flatten with
  | some message => return message
  | none => throw .wrongPadding

end Engine

end SealedText
