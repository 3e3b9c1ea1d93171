import SealedText.Proofs.DeflateSize
import SealedText.Proofs.InflateReads

/-!
# Bits in packed fields

The bits of packed fields stand one behind the other, each field with its lowest bit first
(`carries_packBits`). Where the bits of a field stand, its number is read back
(`readBits_of_carries`).
-/

namespace SealedText.Gzip

variable {a b data : ByteArray} {i pos : Nat}

/-! ## Bytes in front and behind -/

theorem byteAt_lt (data : ByteArray) (i : Nat) : byteAt data i < 256 := by
  unfold byteAt
  split_ifs
  · exact UInt8.toNat_lt _
  · decide

theorem byteAt_append_left (h : i < a.size) : byteAt (a ++ b) i = byteAt a i := by
  rw [byteAt, byteAt, dif_pos (by rw [ByteArray.size_append]; omega), dif_pos h,
    ByteArray.getElem_append_left h]

theorem byteAt_append_right (a b : ByteArray) (i : Nat) :
    byteAt (a ++ b) (a.size + i) = byteAt b i := by
  unfold byteAt
  by_cases hi : i < b.size
  · rw [dif_pos (by rw [ByteArray.size_append]; omega), dif_pos hi,
      ByteArray.getElem_append_right (by omega)]
    simp
  · rw [dif_neg (by rw [ByteArray.size_append]; omega), dif_neg hi]

theorem push_eq_append (a : ByteArray) (byte : UInt8) : a.push byte = a ++ ⟨#[byte]⟩ :=
  ByteArray.ext (by simp)

theorem byteAt_push_of_lt (h : i < a.size) (byte : UInt8) :
    byteAt (a.push byte) i = byteAt a i := by
  rw [push_eq_append, byteAt_append_left h]

theorem byteAt_push_size (a : ByteArray) (byte : UInt8) :
    byteAt (a.push byte) a.size = byte.toNat := by
  rw [push_eq_append]
  exact byteAt_append_right a _ 0

/-! ## Bits -/

/-- The bit at a position. -/
def bitAt (data : ByteArray) (pos : Nat) : Bool := (byteAt data (pos / 8)).testBit (pos % 8)

/-- Some bits stand at a position. -/
structure Carries (data : ByteArray) (pos : Nat) (bits : List Bool) : Prop where
  within : pos + bits.length ≤ 8 * data.size
  same : ∀ k < bits.length, bits[k]? = some (bitAt data (pos + k))

theorem carries_append {bits more : List Bool} : Carries data pos (bits ++ more) ↔
    Carries data pos bits ∧ Carries data (pos + bits.length) more := by
  constructor
  · rintro ⟨hwithin, hsame⟩
    rw [List.length_append] at hwithin hsame
    refine ⟨⟨by omega, fun k hk => ?_⟩, by omega, fun k hk => ?_⟩
    · rw [← hsame k (by omega), List.getElem?_append_left hk]
    · rw [Nat.add_assoc, ← hsame (bits.length + k) (by omega),
        List.getElem?_append_right (Nat.le_add_right ..), Nat.add_sub_cancel_left]
  · rintro ⟨⟨hwithin, hsame⟩, hmore, hthen⟩
    refine ⟨by rw [List.length_append]; omega, fun k hk => ?_⟩
    rw [List.length_append] at hk
    rcases Nat.lt_or_ge k bits.length with hlt | hge
    · rw [List.getElem?_append_left hlt, hsame k hlt]
    · rw [List.getElem?_append_right hge, hthen _ (by omega)]
      congr 2
      omega

theorem bitAt_append_left {k : Nat} (h : k < 8 * a.size) : bitAt (a ++ b) k = bitAt a k := by
  rw [bitAt, bitAt, byteAt_append_left (by omega)]

theorem bitAt_append_right (a b : ByteArray) (k : Nat) :
    bitAt (a ++ b) (8 * a.size + k) = bitAt b k := by
  rw [bitAt, bitAt, Nat.mul_add_div (by decide), Nat.mul_add_mod, byteAt_append_right]

/-- Bits stay where they are when bytes are put in front of them and behind. -/
theorem Carries.append {bits : List Bool} (h : Carries data pos bits) (before after : ByteArray) :
    Carries (before ++ data ++ after) (8 * before.size + pos) bits := by
  have hwithin := h.within
  refine ⟨by rw [ByteArray.size_append, ByteArray.size_append]; omega, fun k hk => ?_⟩
  rw [bitAt_append_left (by rw [ByteArray.size_append]; omega), Nat.add_assoc, bitAt_append_right]
  exact h.same k hk

/-! ## Writing -/

/-- The bits of a field, lowest first. -/
def Field.bits (f : Field) : List Bool := (List.range f.width).map f.value.testBit

/-- The number of a field needs no more than its bits. -/
def Field.Fits (f : Field) : Prop := f.value < 2 ^ f.width

@[simp]
theorem Field.length_bits (f : Field) : f.bits.length = f.width := by simp [bits]

theorem Field.getElem?_bits {f : Field} {k : Nat} (h : k < f.width) :
    f.bits[k]? = some (f.value.testBit k) := by
  simp [bits, h]

theorem fits_noExtra : noExtra.Fits := Nat.one_pos

theorem length_flatMap_bits : ∀ fields : List Field,
    (fields.flatMap Field.bits).length = (fields.map Field.width).sum
  | [] => rfl
  | f :: fields => by
    rw [List.flatMap_cons, List.length_append, f.length_bits, length_flatMap_bits fields,
      List.map_cons, List.sum_cons]

namespace BitBuffer

/-- A byte string under way has taken some bits. -/
structure Spells (b : BitBuffer) (bits : List Bool) : Prop where
  length : bits.length = 8 * b.done.size + b.count
  done : ∀ k < 8 * b.done.size, bits[k]? = some (bitAt b.done k)
  pending : ∀ k < b.count, bits[8 * b.done.size + k]? = some (b.pending.testBit k)
  fits : b.pending < 2 ^ b.count

variable {b : BitBuffer} {bits : List Bool}

theorem spells_empty : empty.Spells [] :=
  ⟨rfl, fun k hk => absurd hk (Nat.not_lt_zero k), fun k hk => absurd hk (Nat.not_lt_zero k),
    Nat.one_pos⟩

theorem bitAt_push_of_lt {done : ByteArray} {k : Nat} (h : k < 8 * done.size) (byte : UInt8) :
    bitAt (done.push byte) k = bitAt done k := by
  rw [bitAt, bitAt, byteAt_push_of_lt (by omega)]

/-- The bits of a new byte are the lowest bits of the number it comes from. -/
theorem bitAt_push_ofNat (done : ByteArray) (n : Nat) {k : Nat} (hk : k < 8) :
    bitAt (done.push (UInt8.ofNat n)) (8 * done.size + k) = n.testBit k := by
  rw [bitAt, Nat.mul_add_div (by decide), Nat.div_eq_of_lt hk, Nat.add_zero, Nat.mul_add_mod,
    Nat.mod_eq_of_lt hk, byteAt_push_size, UInt8.toNat_ofNat', Nat.testBit_mod_two_pow,
    decide_eq_true hk, Bool.true_and]

theorem spells_flush : ∀ (n : Nat) {b : BitBuffer}, b.Spells bits → (b.flush n).Spells bits
  | 0, _, h => h
  | n + 1, b, h => by
    rw [flush]
    split_ifs with hcount
    · exact h
    refine spells_flush n ⟨?_, fun k hk => ?_, fun k hk => ?_, ?_⟩
    · simp only [h.length, ByteArray.size_push]
      omega
    · simp only [ByteArray.size_push] at hk
      rcases Nat.lt_or_ge k (8 * b.done.size) with hlt | hge
      · rw [h.done k hlt, bitAt_push_of_lt hlt]
      · obtain ⟨j, rfl⟩ := Nat.exists_eq_add_of_le hge
        rw [h.pending j (by omega), bitAt_push_ofNat _ _ (by omega)]
    · simp only [ByteArray.size_push] at hk ⊢
      rw [Nat.mul_add, Nat.add_assoc, h.pending _ (by omega), Nat.add_comm 8 k]
      exact congrArg some (Nat.testBit_div_two_pow (n := 8) b.pending k).symm
    · have hpow : 2 ^ b.count = 2 ^ (b.count - 8) * 256 := by
        rw [← Nat.sub_add_cancel (Nat.not_lt.1 hcount), Nat.pow_add, Nat.add_sub_cancel]
      exact Nat.div_lt_of_lt_mul (by rw [Nat.mul_comm, ← hpow]; exact h.fits)

theorem spells_add {f : Field} (h : b.Spells bits) (hf : f.Fits) :
    (b.add f).Spells (bits ++ f.bits) := by
  have hlength := h.length
  have hfits := h.fits
  refine spells_flush _ ⟨?_, fun k hk => ?_, fun k hk => ?_, ?_⟩
  · simp only [List.length_append, f.length_bits]
    omega
  · simp only [] at hk ⊢
    rw [List.getElem?_append_left (by omega), h.done k hk]
  · simp only [] at hk ⊢
    rw [Nat.add_comm b.pending, Nat.shiftLeft_add_eq_or_of_lt hfits, Nat.testBit_or,
      Nat.testBit_shiftLeft]
    rcases Nat.lt_or_ge k b.count with hlt | hge
    · rw [List.getElem?_append_left (by omega), h.pending k hlt, decide_eq_false (by omega),
        Bool.false_and, Bool.false_or]
    · rw [List.getElem?_append_right (by omega), decide_eq_true hge, Bool.true_and,
        Nat.testBit_lt_two_pow (Nat.lt_of_lt_of_le hfits (Nat.pow_le_pow_right (by decide) hge)),
        Bool.or_false, Field.getElem?_bits (by omega)]
      congr 2
      omega
  · have hle := Nat.mul_le_mul_right (2 ^ b.count) (Nat.succ_le_of_lt hf)
    rw [Nat.succ_mul] at hle
    simp only [Nat.shiftLeft_eq, Nat.add_comm b.count, Nat.pow_add]
    omega

theorem spells_foldl_add : ∀ {fields : List Field} {b : BitBuffer} {bits : List Bool},
    b.Spells bits → (∀ f ∈ fields, f.Fits) →
      (fields.foldl add b).Spells (bits ++ fields.flatMap Field.bits)
  | [], _, _, h, _ => by simpa using h
  | f :: fields, b, bits, h, hfits => by
    obtain ⟨hf, hfields⟩ := List.forall_mem_cons.1 hfits
    have hrest := spells_foldl_add (spells_add h hf) hfields
    rwa [List.append_assoc, ← List.flatMap_cons] at hrest

theorem carries_finish (h : b.Spells bits) (hcount : b.count < 8) : Carries b.finish 0 bits := by
  have hlength := h.length
  unfold finish
  split_ifs with hnone
  · refine ⟨by omega, fun k hk => ?_⟩
    rw [Nat.zero_add, h.done k (by omega)]
  · refine ⟨by rw [ByteArray.size_push]; omega, fun k hk => ?_⟩
    rw [Nat.zero_add]
    rcases Nat.lt_or_ge k (8 * b.done.size) with hlt | hge
    · rw [h.done k hlt, bitAt_push_of_lt hlt]
    · obtain ⟨j, rfl⟩ := Nat.exists_eq_add_of_le hge
      rw [h.pending j (by omega), bitAt_push_ofNat _ _ (by omega)]

end BitBuffer

theorem carries_packBits {fields : List Field} (h : ∀ f ∈ fields, f.Fits) :
    Carries (packBits fields) 0 (fields.flatMap Field.bits) :=
  BitBuffer.carries_finish (BitBuffer.spells_foldl_add BitBuffer.spells_empty h)
    (BitBuffer.count_foldl_add fields (by decide))

/-! ## Reading -/

theorem testBit_windowAt (data : ByteArray) (i : Nat) {k : Nat} (hk : k < 24) :
    (windowAt data i).testBit k = bitAt data (8 * i + k) := by
  have hlow : byteAt data i < 2 ^ 8 := byteAt_lt data i
  have hmiddle : byteAt data (i + 1) < 2 ^ 8 := byteAt_lt data (i + 1)
  have hform : windowAt data i =
      2 ^ 8 * (2 ^ 8 * byteAt data (i + 2) + byteAt data (i + 1)) + byteAt data i := by
    rw [windowAt]
    omega
  rw [hform, Nat.testBit_two_pow_mul_add _ hlow, Nat.testBit_two_pow_mul_add _ hmiddle, bitAt,
    Nat.mul_add_div (by decide), Nat.mul_add_mod]
  rcases (by omega : k < 8 ∨ 8 ≤ k ∧ k < 16 ∨ 16 ≤ k) with hk₁ | ⟨hk₁, hk₂⟩ | hk₁
  · rw [if_pos hk₁, Nat.div_eq_of_lt hk₁, Nat.mod_eq_of_lt hk₁, Nat.add_zero]
  · rw [if_neg (by omega), if_pos (by omega), show k / 8 = 1 by omega, show k % 8 = k - 8 by omega]
  · rw [if_neg (by omega), if_neg (by omega), show k / 8 = 2 by omega,
      show k % 8 = k - 8 - 8 by omega]

theorem readBits_of_carries {f : Field} (h : Carries data pos f.bits) (hf : f.Fits)
    (hwidth : f.width ≤ 16) : readBits data pos f.width = .ok f.value := by
  have hwithin := h.within
  rw [f.length_bits] at hwithin
  refine readBits_eq_ok.2 ⟨hwithin, Nat.eq_of_testBit_eq fun k => ?_⟩
  rw [Nat.testBit_mod_two_pow, Nat.testBit_div_two_pow]
  rcases Nat.lt_or_ge k f.width with hlt | hge
  · have hbit := h.same k (by rwa [f.length_bits])
    rw [Field.getElem?_bits hlt, Option.some.injEq] at hbit
    rw [decide_eq_true hlt, Bool.true_and, testBit_windowAt _ _ (by omega), hbit]
    congr 1
    omega
  · rw [decide_eq_false (by omega), Bool.false_and,
      Nat.testBit_lt_two_pow (Nat.lt_of_lt_of_le hf (Nat.pow_le_pow_right (by decide) hge))]

end SealedText.Gzip
