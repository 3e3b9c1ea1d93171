import SealedText.Cipher.Standard
import SealedText.Proofs.AesLawful
import SealedText.Proofs.EngineLawful
import SealedText.Proofs.MaskLawful
import SealedText.Proofs.SerpentLawful
import SealedText.Proofs.TwofishLawful

/-!
# Cascades compose their leaves

However engines are nested, and however unequal the key sizes of their leaves, the key of the whole
is cut into consecutive slices, one for each leaf from left to right; encrypting runs the leaves in
that order and decrypting in the opposite one. The standard engine is the case of three leaves.
-/

namespace SealedText.Engine

theorem built_standard : standard.Built Stage.Lawful :=
  .chained (.stage ⟨Aes.lawful, fun _ => rfl⟩) (.stage ⟨Twofish.lawful, fun _ => rfl⟩)
    (.stage ⟨Serpent.lawful, fun _ => rfl⟩) chain_standard

theorem lawful_standard : standard.Lawful := lawful_of_built built_standard

theorem leaves_standard : standard.leaves = [Aes.cipher, Twofish.cipher, Serpent.cipher] := rfl

theorem subkeys_standard {key : Bytes} (hk : key.length = 96) :
    standard.subkeys key = [key.take 32, (key.drop 32).take 32, key.drop 64] := by
  have hlast : (key.drop 64).take 32 = key.drop 64 :=
    List.take_of_length_le (by rw [List.length_drop]; omega)
  change [key.take 32, (key.drop 32).take 32, ((key.drop 32).drop 32).take 32] = _
  rw [List.drop_drop, hlast]

theorem inverse_bind {n : Nat} {enc dec : Engine} (h : Inverse n enc dec) {block : Bytes}
    (hb : block.length = n) :
    (enc.process block >>= dec.process) = .ok block ∧
      (dec.process block >>= enc.process) = .ok block := by
  obtain ⟨sealed, -, henc, hdec⟩ := h.undo block hb
  obtain ⟨opened, -, hdec₁, henc₁⟩ := h.redo block hb
  rw [henc, hdec₁]
  exact ⟨hdec, henc₁⟩

/-- Every engine built by chaining lawful stages takes keys of the total length only, slices them
with no gap and no overlap, and runs its leaves under the slices: from left to right to encrypt,
from right to left to decrypt. The two undo each other. The standard engine is AES, Twofish and
Serpent, in slices of 32 bytes. -/
theorem built_composes :
    (standard.Built Stage.Lawful ∧ standard.leaves = [Aes.cipher, Twofish.cipher, Serpent.cipher] ∧
        ∀ key : Bytes, key.length = 96 →
          standard.subkeys key = [key.take 32, (key.drop 32).take 32, key.drop 64]) ∧
      ∀ e : Engine, e.Built Stage.Lawful →
        e.keySize = (e.leaves.map (·.keySize)).sum ∧
          (∀ direction key,
            (∃ e₁, e.setKey direction key = (e₁, none)) ↔ key.length = e.keySize) ∧
          ∀ key, key.length = e.keySize →
            ((e.subkeys key).flatten = key ∧
              (e.subkeys key).map List.length = e.leaves.map (·.keySize)) ∧
            ∀ enc dec, e.setKey .encrypting key = (enc, none) →
              e.setKey .decrypting key = (dec, none) →
              ∀ block : Bytes, block.length = e.blockSize →
                enc.process block = .ok (composition .encrypting
                  (List.zipWith BlockCipher.keyed e.leaves (e.subkeys key)) block) ∧
                dec.process block = .ok (composition .decrypting
                  (List.zipWith BlockCipher.keyed e.leaves (e.subkeys key)) block) ∧
                (enc.process block >>= dec.process) = .ok block ∧
                (dec.process block >>= enc.process) = .ok block := by
  refine ⟨⟨built_standard, leaves_standard, fun key => subkeys_standard⟩, fun e he => ?_⟩
  refine ⟨keySize_eq_sum e, he.setKey_iff, fun key hk => ⟨⟨?_, ?_⟩, ?_⟩⟩
  · exact flatten_slices (hk.trans (keySize_eq_sum e))
  · exact map_length_slices (by rw [hk, ← keySize_eq_sum])
  · intro enc dec henc hdec block hb
    refine ⟨process_of_setKey he.lawful_leaves henc hb,
      process_of_setKey he.lawful_leaves hdec hb, ?_⟩
    exact inverse_bind (inverse_of_setKey he.lawful_leaves henc hdec) hb

/-- A cascade of masks inside a cascade, with leaf keys of one, two, three, five and one bytes. -/
def nestedMasks : Engine :=
  let mask (n : Nat) := ofCipher (Mask.cipher 8 n)
  .cascade (.cascade (mask 1) (mask 2) (mask 3) none) (mask 5) (mask 1) none

theorem built_nestedMasks : nestedMasks.Built Stage.Lawful := by
  have mask (n : Nat) : (ofCipher (Mask.cipher 8 n)).Built Stage.Lawful :=
    .stage ⟨Mask.lawful 8 n, fun _ => rfl⟩
  have inner : (Engine.cascade (ofCipher (Mask.cipher 8 1)) (ofCipher (Mask.cipher 8 2))
      (ofCipher (Mask.cipher 8 3)) none).Built Stage.Lawful :=
    .chained (mask 1) (mask 2) (mask 3) rfl
  exact .chained inner (mask 5) (mask 1) rfl

theorem nestedMasks_composes :
    nestedMasks.keySize = 12 ∧ ∃ enc dec,
      nestedMasks.setKey .encrypting [1, 2, 3, 4, 5, 6, 7, 8, 9, 10, 11, 12] = (enc, none) ∧
      nestedMasks.setKey .decrypting [1, 2, 3, 4, 5, 6, 7, 8, 9, 10, 11, 12] = (dec, none) ∧
      enc.process [0, 1, 2, 3, 4, 5, 6, 7] = .ok [15, 29, 1, 2, 8, 11, 22, 6] ∧
      (enc.process [0, 1, 2, 3, 4, 5, 6, 7] >>= dec.process) = .ok [0, 1, 2, 3, 4, 5, 6, 7] := by
  obtain ⟨-, hkey, hrun⟩ := built_composes.2 nestedMasks built_nestedMasks
  obtain ⟨enc, henc⟩ := (hkey .encrypting [1, 2, 3, 4, 5, 6, 7, 8, 9, 10, 11, 12]).2 rfl
  obtain ⟨dec, hdec⟩ := (hkey .decrypting [1, 2, 3, 4, 5, 6, 7, 8, 9, 10, 11, 12]).2 rfl
  obtain ⟨hblock, -, hback, -⟩ := (hrun _ rfl).2 enc dec henc hdec [0, 1, 2, 3, 4, 5, 6, 7] rfl
  refine ⟨rfl, enc, dec, henc, hdec, hblock.trans ?_, hback⟩
  rfl

end SealedText.Engine
