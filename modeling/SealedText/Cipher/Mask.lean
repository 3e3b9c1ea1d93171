import SealedText.Cipher.Basic

/-!
# A masking cipher

A cipher of any block and key size that keeps no secret: byte `i` of a block is masked with byte
`i mod keySize` of the key, then stepped by one. It shows the modes and cascades at block sizes that
the real ciphers do not have, and its laws are easy to see.
-/

namespace SealedText.Mask

/-- The key repeated to `width` bytes. -/
def stretch (key : Bytes) (width : Nat) : Bytes :=
  (List.range width).map fun i => key.getD (i % key.length) 0

def encryptByte (b x : UInt8) : UInt8 := (b ^^^ x) + 1

def decryptByte (b x : UInt8) : UInt8 := (b - 1) ^^^ x

theorem decryptByte_encryptByte (b x : UInt8) : decryptByte (encryptByte b x) x = b := by
  rw [decryptByte, encryptByte, UInt8.add_sub_cancel, UInt8.xor_assoc, UInt8.xor_self,
    UInt8.xor_zero]

theorem encryptByte_decryptByte (b x : UInt8) : encryptByte (decryptByte b x) x = b := by
  rw [decryptByte, encryptByte, UInt8.xor_assoc, UInt8.xor_self, UInt8.xor_zero,
    UInt8.sub_add_cancel]

def cipher (blockSize keySize : Nat) : BlockCipher where
  name := "Xor"
  blockSize := blockSize
  keySize := keySize
  keyed key :=
    let mask := stretch key blockSize
    { encrypt := fun block => block.zipWith encryptByte mask
      decrypt := fun block => block.zipWith decryptByte mask }

end SealedText.Mask
