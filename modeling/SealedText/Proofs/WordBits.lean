import Mathlib.Tactic.SplitIfs
import SealedText.Cipher.Words

/-!
# Words, bit by bit

The rotations undo each other, a word is its four bytes, and a block of sixteen bytes is four words.
Each is shown on the bits: a rotation moves them, and byte `k` of a word has its bits from `8 * k`
on.
-/

namespace SealedText

section Rotation

variable {n : UInt32}

theorem rotation_amounts (h0 : 0 < n) (h : n < 32) :
    n.toNat < 32 ∧ (4294967296 - n.toNat) % 32 = 32 - n.toNat % 32 := by
  have hpos : 0 < n.toNat := by simpa [UInt32.lt_iff_toNat_lt] using h0
  have hlt : n.toNat < 32 := by simpa [UInt32.lt_iff_toNat_lt] using h
  omega

theorem toBitVec_rotateLeft (w : UInt32) (h0 : 0 < n) (h : n < 32) :
    (rotateLeft w n).toBitVec = w.toBitVec.rotateLeft n.toNat := by
  obtain ⟨-, hdiff⟩ := rotation_amounts h0 h
  rw [BitVec.rotateLeft_def, rotateLeft, UInt32.toBitVec_or, UInt32.toBitVec_shiftLeft,
    UInt32.toBitVec_shiftRight]
  simp [hdiff]

theorem toBitVec_rotateRight (w : UInt32) (h0 : 0 < n) (h : n < 32) :
    (rotateRight w n).toBitVec = w.toBitVec.rotateRight n.toNat := by
  obtain ⟨-, hdiff⟩ := rotation_amounts h0 h
  rw [BitVec.rotateRight_def, rotateRight, UInt32.toBitVec_or, UInt32.toBitVec_shiftLeft,
    UInt32.toBitVec_shiftRight]
  simp [hdiff]

theorem rotateRight_rotateLeft_bitVec {w r : Nat} (x : BitVec w) (hr : r < w) :
    (x.rotateLeft r).rotateRight r = x := by
  apply BitVec.eq_of_getLsbD_eq
  intro i hi
  simp only [BitVec.getLsbD_rotateRight, BitVec.getLsbD_rotateLeft, Nat.mod_eq_of_lt hr,
    cond_eq_ite, decide_eq_true_eq]
  by_cases hw : i < w - r
  · have hge : ¬ r + i < r := by omega
    have hlt : r + i < w := by omega
    rw [if_pos hw, if_neg hge, decide_eq_true hlt, Bool.true_and, Nat.add_sub_cancel_left]
  · have hlt : i - (w - r) < r := by omega
    have hback : w - r + (i - (w - r)) = i := by omega
    rw [if_neg hw, decide_eq_true hi, Bool.true_and, if_pos hlt, hback]

theorem rotateLeft_rotateRight_bitVec {w r : Nat} (x : BitVec w) (hr : r < w) :
    (x.rotateRight r).rotateLeft r = x := by
  apply BitVec.eq_of_getLsbD_eq
  intro i hi
  simp only [BitVec.getLsbD_rotateRight, BitVec.getLsbD_rotateLeft, Nat.mod_eq_of_lt hr,
    cond_eq_ite, decide_eq_true_eq]
  by_cases hw : i < r
  · have hge : ¬ w - r + i < w - r := by omega
    have hlt : w - r + i < w := by omega
    rw [if_pos hw, if_neg hge, decide_eq_true hlt, Bool.true_and, Nat.add_sub_cancel_left]
  · have hlt : i - r < w - r := by omega
    have hback : r + (i - r) = i := by omega
    rw [if_neg hw, decide_eq_true hi, Bool.true_and, if_pos hlt, hback]

theorem rotateRight_rotateLeft (w : UInt32) (h0 : 0 < n) (h : n < 32) :
    rotateRight (rotateLeft w n) n = w := by
  apply UInt32.eq_of_toBitVec_eq
  rw [toBitVec_rotateRight _ h0 h, toBitVec_rotateLeft _ h0 h,
    rotateRight_rotateLeft_bitVec _ (rotation_amounts h0 h).1]

theorem rotateLeft_rotateRight (w : UInt32) (h0 : 0 < n) (h : n < 32) :
    rotateLeft (rotateRight w n) n = w := by
  apply UInt32.eq_of_toBitVec_eq
  rw [toBitVec_rotateLeft _ h0 h, toBitVec_rotateRight _ h0 h,
    rotateLeft_rotateRight_bitVec _ (rotation_amounts h0 h).1]

end Rotation

section Bytes

theorem getLsbD_wordOfBytes (a b c d : UInt8) {i : Nat} (hi : i < 32) :
    (wordOfBytes a b c d).toBitVec.getLsbD i =
      if i < 8 then a.toBitVec.getLsbD i
      else if i < 16 then b.toBitVec.getLsbD (i - 8)
      else if i < 24 then c.toBitVec.getLsbD (i - 16)
      else d.toBitVec.getLsbD (i - 24) := by
  have out (x : UInt8) (j : Nat) (h : 8 ≤ j) : x.toBitVec.getLsbD j = false :=
    BitVec.getLsbD_of_ge _ _ h
  simp only [wordOfBytes, UInt32.toBitVec_or, UInt32.toBitVec_shiftLeft, BitVec.getLsbD_or]
  split_ifs with h₁ h₂ h₃
  · simp [hi, h₁, show i < 16 by omega, show i < 24 by omega]
  · simp [hi, h₁, h₂, show i < 24 by omega, out a i (by omega)]
  · simp [hi, h₁, h₂, h₃, out a i (by omega), out b (i - 8) (by omega)]
  · simp [hi, h₁, h₂, h₃, out a i (by omega), out b (i - 8) (by omega), out c (i - 16) (by omega)]

theorem wordOfBytes_bytes (w : UInt32) :
    wordOfBytes w.toUInt8 (w >>> 8).toUInt8 (w >>> 16).toUInt8 (w >>> 24).toUInt8 = w := by
  apply UInt32.eq_of_toBitVec_eq
  apply BitVec.eq_of_getLsbD_eq
  intro i hi
  rw [getLsbD_wordOfBytes _ _ _ _ hi]
  split_ifs with h₁ h₂ h₃
  · simp [h₁]
  · simp [show i - 8 < 8 by omega, show 8 + (i - 8) = i by omega]
  · simp [show i - 16 < 8 by omega, show 16 + (i - 16) = i by omega]
  · simp [show i - 24 < 8 by omega, show 24 + (i - 24) = i by omega]

theorem toUInt8_eq_of_getLsbD {w : UInt32} {x : UInt8}
    (h : ∀ i < 8, w.toBitVec.getLsbD i = x.toBitVec.getLsbD i) : w.toUInt8 = x := by
  apply UInt8.eq_of_toBitVec_eq
  apply BitVec.eq_of_getLsbD_eq
  intro i hi
  rw [← h i hi]
  simp [hi]

theorem bytesOfWord_wordOfBytes (a b c d : UInt8) :
    bytesOfWord (wordOfBytes a b c d) = [a, b, c, d] := by
  have h₀ : (wordOfBytes a b c d).toUInt8 = a := toUInt8_eq_of_getLsbD fun i hi => by
    rw [getLsbD_wordOfBytes _ _ _ _ (by omega), if_pos hi]
  have h₁ : (wordOfBytes a b c d >>> 8).toUInt8 = b := toUInt8_eq_of_getLsbD fun i hi => by
    change ((wordOfBytes a b c d).toBitVec >>> 8).getLsbD i = _
    rw [BitVec.getLsbD_ushiftRight, getLsbD_wordOfBytes _ _ _ _ (by omega), if_neg (by omega),
      if_pos (by omega), Nat.add_sub_cancel_left]
  have h₂ : (wordOfBytes a b c d >>> 16).toUInt8 = c := toUInt8_eq_of_getLsbD fun i hi => by
    change ((wordOfBytes a b c d).toBitVec >>> 16).getLsbD i = _
    rw [BitVec.getLsbD_ushiftRight, getLsbD_wordOfBytes _ _ _ _ (by omega), if_neg (by omega),
      if_neg (by omega), if_pos (by omega), Nat.add_sub_cancel_left]
  have h₃ : (wordOfBytes a b c d >>> 24).toUInt8 = d := toUInt8_eq_of_getLsbD fun i hi => by
    change ((wordOfBytes a b c d).toBitVec >>> 24).getLsbD i = _
    rw [BitVec.getLsbD_ushiftRight, getLsbD_wordOfBytes _ _ _ _ (by omega), if_neg (by omega),
      if_neg (by omega), if_neg (by omega), Nat.add_sub_cancel_left]
  rw [bytesOfWord, h₀, h₁, h₂, h₃]

end Bytes

namespace Quad

theorem ofBytes_toBytes (p : Quad) : ofBytes p.toBytes = p := by
  simp only [toBytes, bytesOfWord, List.cons_append, List.nil_append, ofBytes, wordOfBytes_bytes]

theorem toBytes_ofBytes {block : Bytes} (h : block.length = 16) :
    (ofBytes block).toBytes = block := by
  match block, h with
  | [a0, a1, a2, a3, a4, a5, a6, a7, a8, a9, a10, a11, a12, a13, a14, a15], _ =>
    simp only [ofBytes, toBytes, bytesOfWord_wordOfBytes, List.cons_append, List.nil_append]

theorem length_toBytes (p : Quad) : p.toBytes.length = 16 := rfl

theorem xor_xor (p q : Quad) : (p.xor q).xor q = p := by
  simp only [xor, UInt32.xor_assoc, UInt32.xor_self, UInt32.xor_zero]

end Quad

end SealedText
