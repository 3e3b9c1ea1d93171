import SealedText.Cipher.Mask

/-!
# The masking cipher is lawful

It undoes itself byte by byte, at any block size and under a key of any length.
-/

namespace SealedText.Mask

theorem length_stretch (key : Bytes) (width : Nat) : (stretch key width).length = width := by
  rw [stretch, List.length_map, List.length_range]

theorem zipWith_zipWith {f g : UInt8 → UInt8 → UInt8} (h : ∀ b x, f (g b x) x = b) :
    ∀ {block mask : Bytes}, block.length = mask.length →
      (block.zipWith g mask).zipWith f mask = block
  | [], _, _ => rfl
  | _ :: _, [], hlen => by simp at hlen
  | b :: block, x :: mask, hlen => by
    rw [List.zipWith_cons_cons, List.zipWith_cons_cons, h, zipWith_zipWith h (by simpa using hlen)]

theorem length_zipWith_stretch {f : UInt8 → UInt8 → UInt8} {block : Bytes} (key : Bytes)
    {width : Nat} (h : block.length = width) :
    (block.zipWith f (stretch key width)).length = width := by
  rw [List.length_zipWith, length_stretch, h, Nat.min_self]

theorem lawful (blockSize keySize : Nat) : (cipher blockSize keySize).Lawful where
  length_encrypt key _ _ hb := length_zipWith_stretch key hb
  length_decrypt key _ _ hb := length_zipWith_stretch key hb
  decrypt_encrypt key _ _ hb :=
    zipWith_zipWith decryptByte_encryptByte (hb.trans (length_stretch key blockSize).symm)
  encrypt_decrypt key _ _ hb :=
    zipWith_zipWith encryptByte_decryptByte (hb.trans (length_stretch key blockSize).symm)

end SealedText.Mask
