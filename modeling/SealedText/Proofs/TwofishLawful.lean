import SealedText.Cipher.Twofish
import SealedText.Proofs.WordBits

/-!
# Twofish is lawful

A round adds a function of one half to the other, so it can be undone whatever that function is
(`unround_round`). Nothing about the key schedule or the tables is used.
-/

namespace SealedText.Twofish

variable (words : Quad) (keys : UInt32 × UInt32)

def round (s : Quad) : Quad :=
  let f := roundFunction words keys s.w0 s.w1
  ⟨rotateRight (s.w2 ^^^ f.1) 1, rotateLeft s.w3 1 ^^^ f.2, s.w0, s.w1⟩

def unround (s : Quad) : Quad :=
  let f := roundFunction words keys s.w2 s.w3
  ⟨s.w2, s.w3, rotateLeft s.w0 1 ^^^ f.1, rotateRight (s.w1 ^^^ f.2) 1⟩

theorem encryptRounds_cons (rest : List (UInt32 × UInt32)) (s : Quad) :
    encryptRounds words (keys :: rest) s = encryptRounds words rest (round words keys s) := rfl

theorem decryptRounds_cons (rest : List (UInt32 × UInt32)) (s : Quad) :
    decryptRounds words (keys :: rest) s = unround words keys (decryptRounds words rest s) := rfl

theorem unround_round (s : Quad) : unround words keys (round words keys s) = s := by
  simp (disch := decide) only [round, unround, rotateLeft_rotateRight, rotateRight_rotateLeft,
    UInt32.xor_assoc, UInt32.xor_self, UInt32.xor_zero]

theorem round_unround (s : Quad) : round words keys (unround words keys s) = s := by
  simp (disch := decide) only [round, unround, rotateLeft_rotateRight, rotateRight_rotateLeft,
    UInt32.xor_assoc, UInt32.xor_self, UInt32.xor_zero]

theorem decryptRounds_encryptRounds :
    ∀ (rounds : List (UInt32 × UInt32)) (s : Quad),
      decryptRounds words rounds (encryptRounds words rounds s) = s
  | [], _ => rfl
  | keys :: rest, s => by
    rw [encryptRounds_cons, decryptRounds_cons, decryptRounds_encryptRounds rest, unround_round]

theorem encryptRounds_decryptRounds :
    ∀ (rounds : List (UInt32 × UInt32)) (s : Quad),
      encryptRounds words rounds (decryptRounds words rounds s) = s
  | [], _ => rfl
  | keys :: rest, s => by
    rw [encryptRounds_cons, decryptRounds_cons, round_unround, encryptRounds_decryptRounds rest]

theorem swap_swap (s : Quad) : swap (swap s) = s := rfl

theorem decryptQuad_encryptQuad (k : Schedule) (s : Quad) :
    decryptQuad k (encryptQuad k s) = s := by
  rw [decryptQuad, encryptQuad, Quad.xor_xor, swap_swap, decryptRounds_encryptRounds, Quad.xor_xor]

theorem encryptQuad_decryptQuad (k : Schedule) (s : Quad) :
    encryptQuad k (decryptQuad k s) = s := by
  rw [decryptQuad, encryptQuad, Quad.xor_xor, encryptRounds_decryptRounds, swap_swap, Quad.xor_xor]

theorem lawful : cipher.Lawful where
  length_encrypt _ _ _ _ := Quad.length_toBytes _
  length_decrypt _ _ _ _ := Quad.length_toBytes _
  decrypt_encrypt key block _ hb := by
    change (decryptQuad _
      (.ofBytes (encryptQuad (schedule key) (.ofBytes block)).toBytes)).toBytes = _
    rw [Quad.ofBytes_toBytes, decryptQuad_encryptQuad, Quad.toBytes_ofBytes hb]
  encrypt_decrypt key block _ hb := by
    change (encryptQuad _
      (.ofBytes (decryptQuad (schedule key) (.ofBytes block)).toBytes)).toBytes = _
    rw [Quad.ofBytes_toBytes, encryptQuad_decryptQuad, Quad.toBytes_ofBytes hb]

end SealedText.Twofish
