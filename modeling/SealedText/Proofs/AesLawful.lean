import Mathlib.Data.Fintype.EquivFin
import SealedText.Cipher.Aes

/-!
# AES is lawful

Each step of a round has its inverse. For the byte substitution that is a look at all 256 bytes. For
the column mix it is algebra, since `xtime` is additive: mixing twice only adds to each byte a
multiple of its sum with the byte across (`mix_mix`), which undoes itself, so mixing four times
changes nothing, and `unmix` is mixing three times. The key schedule does not matter.
-/

namespace SealedText.Aes

/-! ## Bytes -/

theorem substitute_eq (b : UInt8) : substitute b = substitution.toList.getD b.toNat 0 := by
  rw [substitute, Array.getD_eq_getD_getElem?, List.getD_eq_getElem?_getD, Array.getElem?_toList]

theorem unsubstitute_eq (b : UInt8) :
    unsubstitute b = inverseSubstitution.toList.getD b.toNat 0 := by
  rw [unsubstitute, Array.getD_eq_getD_getElem?, List.getD_eq_getElem?_getD, Array.getElem?_toList]

theorem length_substitution : substitution.toList.length = 256 := by decide +kernel

theorem tables_inverse :
    substitution.toList.map (fun b => inverseSubstitution.toList.getD b.toNat 0) =
      (List.range 256).map UInt8.ofNat := by
  decide +kernel

theorem unsubstitute_substitute (b : UInt8) : unsubstitute (substitute b) = b := by
  have hsize : b.toNat < substitution.toList.length := by
    rw [length_substitution]
    exact b.toNat_lt
  have h := congrArg (fun l => l[b.toNat]?) tables_inverse
  simp only [List.getElem?_map, List.getElem?_eq_getElem hsize,
    List.getElem?_range (show b.toNat < 256 from b.toNat_lt), Option.map_some, Option.some.injEq,
    UInt8.ofNat_toNat] at h
  have hget : substitution.toList.getD b.toNat 0 = substitution.toList[b.toNat] := by
    rw [List.getD_eq_getElem?_getD, List.getElem?_eq_getElem hsize, Option.getD_some]
  rw [unsubstitute_eq, substitute_eq, hget, h]

theorem finite_byte : Finite UInt8 := Finite.of_injective UInt8.toFin fun _ _ => UInt8.toFin_inj.1

/-- There are finitely many bytes, so the other direction follows. -/
theorem substitute_unsubstitute (b : UInt8) : substitute (unsubstitute b) = b := by
  have hleft : Function.LeftInverse unsubstitute substitute := unsubstitute_substitute
  have := finite_byte
  exact hleft.rightInverse_of_surjective (Finite.surjective_of_injective hleft.injective) b

theorem topBit_cases (a : UInt8) : a >>> 7 = 0 ∨ a >>> 7 = 1 := by
  have hlt := a.toNat_lt
  have hdiv : (a >>> 7).toNat = a.toNat / 128 := by
    simp [UInt8.toNat_shiftRight, Nat.shiftRight_eq_div_pow]
  have hcases : a.toNat / 128 = 0 ∨ a.toNat / 128 = 1 := by omega
  rw [← hdiv] at hcases
  exact hcases.imp (fun h => UInt8.toNat_inj.1 h) fun h => UInt8.toNat_inj.1 h

/-- Multiplication by `x` is additive. -/
theorem xtime_xor (a b : UInt8) : xtime (a ^^^ b) = xtime a ^^^ xtime b := by
  have carry : ((a ^^^ b) >>> 7) * (0x1b : UInt8) =
      ((a >>> 7) * (0x1b : UInt8)) ^^^ ((b >>> 7) * (0x1b : UInt8)) := by
    rw [UInt8.shiftRight_xor]
    rcases topBit_cases a with ha | ha <;> rcases topBit_cases b with hb | hb <;> rw [ha, hb] <;>
      rfl
  rw [xtime, xtime, xtime, carry, UInt8.shiftLeft_xor]
  ac_rfl

theorem xor_left_comm (a b c : UInt8) : a ^^^ (b ^^^ c) = b ^^^ (a ^^^ c) := by ac_rfl

theorem xor_xor_cancel_left (a b : UInt8) : a ^^^ (a ^^^ b) = b := by
  rw [← UInt8.xor_assoc, UInt8.xor_self, UInt8.zero_xor]

/-! ## Columns -/

namespace Column

theorem add_add (p q : Column) : (p.add q).add q = p := by
  simp only [add, UInt8.xor_assoc, UInt8.xor_self, UInt8.xor_zero]

theorem map_map {f g : UInt8 → UInt8} (h : ∀ b, f (g b) = b) (p : Column) :
    (p.map g).map f = p := by
  simp only [map, h]

/-- One byte of the mix. -/
def mixByte (a b c d : UInt8) : UInt8 := xtime a ^^^ (xtime b ^^^ b) ^^^ c ^^^ d

/-- One byte of the inverse mix. -/
def unmixByte (a b c d : UInt8) : UInt8 :=
  xtime (xtime (xtime (a ^^^ b ^^^ c ^^^ d))) ^^^ xtime (xtime (a ^^^ c)) ^^^ xtime (a ^^^ b) ^^^
    b ^^^ c ^^^ d

/-- A byte with four times its sum with the byte across. -/
def squareByte (a c : UInt8) : UInt8 := a ^^^ xtime (xtime (a ^^^ c))

theorem mixByte_mixByte (a b c d : UInt8) :
    mixByte (mixByte a b c d) (mixByte b c d a) (mixByte c d a b) (mixByte d a b c) =
      squareByte a c := by
  simp only [mixByte, squareByte, xtime_xor, UInt8.xor_assoc, UInt8.xor_comm, xor_left_comm,
    xor_xor_cancel_left]

theorem squareByte_squareByte (a c : UInt8) : squareByte (squareByte a c) (squareByte c a) = a := by
  simp only [squareByte, xtime_xor, UInt8.xor_comm, xor_left_comm, UInt8.xor_self, UInt8.xor_zero]

theorem unmixByte_eq (a b c d : UInt8) :
    unmixByte a b c d =
      mixByte (squareByte a c) (squareByte b d) (squareByte c a) (squareByte d b) := by
  simp only [mixByte, unmixByte, squareByte, xtime_xor, UInt8.xor_assoc, UInt8.xor_comm,
    xor_left_comm, xor_xor_cancel_left]

def square (p : Column) : Column :=
  ⟨squareByte p.b0 p.b2, squareByte p.b1 p.b3, squareByte p.b2 p.b0, squareByte p.b3 p.b1⟩

theorem mix_eq (p : Column) :
    p.mix = ⟨mixByte p.b0 p.b1 p.b2 p.b3, mixByte p.b1 p.b2 p.b3 p.b0,
      mixByte p.b2 p.b3 p.b0 p.b1, mixByte p.b3 p.b0 p.b1 p.b2⟩ := rfl

theorem mix_mix (p : Column) : p.mix.mix = p.square := by
  simp only [mix_eq, mixByte_mixByte, square]

theorem square_square (p : Column) : p.square.square = p := by
  simp only [square, squareByte_squareByte]

theorem unmix_eq (p : Column) : p.unmix = p.square.mix := by
  change (⟨unmixByte p.b0 p.b1 p.b2 p.b3, unmixByte p.b1 p.b2 p.b3 p.b0,
    unmixByte p.b2 p.b3 p.b0 p.b1, unmixByte p.b3 p.b0 p.b1 p.b2⟩ : Column) = _
  simp only [unmixByte_eq, mix_eq, square]

theorem unmix_mix (p : Column) : p.mix.unmix = p := by
  rw [unmix_eq, ← mix_mix, mix_mix, mix_mix, square_square]

theorem mix_unmix (p : Column) : p.unmix.mix = p := by
  rw [unmix_eq, mix_mix, square_square]

end Column

/-! ## Squares and rounds -/

namespace Square

theorem add_add (s t : Square) : (s.add t).add t = s := by
  simp only [add, Column.add_add]

theorem map_map {f g : Column → Column} (h : ∀ p, f (g p) = p) (s : Square) :
    (s.map g).map f = s := by
  simp only [map, h]

theorem unshiftRows_shiftRows (s : Square) : s.shiftRows.unshiftRows = s := rfl

theorem shiftRows_unshiftRows (s : Square) : s.unshiftRows.shiftRows = s := rfl

theorem ofBytes_toBytes (s : Square) : ofBytes s.toBytes = s := rfl

theorem toBytes_ofBytes {block : Bytes} (h : block.length = 16) :
    (ofBytes block).toBytes = block := by
  match block, h with
  | [a0, a1, a2, a3, a4, a5, a6, a7, a8, a9, a10, a11, a12, a13, a14, a15], _ => rfl

theorem length_toBytes (s : Square) : s.toBytes.length = 16 := rfl

/-- Every byte through the substitution table. -/
def substitute (s : Square) : Square := s.map (Column.map Aes.substitute)

def unsubstitute (s : Square) : Square := s.map (Column.map Aes.unsubstitute)

theorem unsubstitute_substitute (s : Square) : s.substitute.unsubstitute = s :=
  map_map (Column.map_map Aes.unsubstitute_substitute) s

theorem substitute_unsubstitute (s : Square) : s.unsubstitute.substitute = s :=
  map_map (Column.map_map Aes.substitute_unsubstitute) s

end Square

theorem encryptRounds_single (k s : Square) :
    encryptRounds [k] s = s.substitute.shiftRows.add k := rfl

theorem decryptRounds_single (k s : Square) :
    decryptRounds [k] s = (s.add k).unshiftRows.unsubstitute := rfl

theorem encryptRounds_cons (k l : Square) (ks : List Square) (s : Square) :
    encryptRounds (k :: l :: ks) s =
      encryptRounds (l :: ks) ((s.substitute.shiftRows.map Column.mix).add k) := rfl

theorem decryptRounds_cons (k l : Square) (ks : List Square) (s : Square) :
    decryptRounds (k :: l :: ks) s =
      (((decryptRounds (l :: ks) s).add k).map Column.unmix).unshiftRows.unsubstitute := rfl

theorem decryptRounds_encryptRounds :
    ∀ (ks : List Square) (s : Square), decryptRounds ks (encryptRounds ks s) = s
  | [], _ => rfl
  | [k], s => by
    rw [encryptRounds_single, decryptRounds_single, Square.add_add, Square.unshiftRows_shiftRows,
      Square.unsubstitute_substitute]
  | k :: l :: ks, s => by
    rw [encryptRounds_cons, decryptRounds_cons, decryptRounds_encryptRounds (l :: ks),
      Square.add_add, Square.map_map Column.unmix_mix, Square.unshiftRows_shiftRows,
      Square.unsubstitute_substitute]

theorem encryptRounds_decryptRounds :
    ∀ (ks : List Square) (s : Square), encryptRounds ks (decryptRounds ks s) = s
  | [], _ => rfl
  | [k], s => by
    rw [encryptRounds_single, decryptRounds_single, Square.substitute_unsubstitute,
      Square.shiftRows_unshiftRows, Square.add_add]
  | k :: l :: ks, s => by
    rw [encryptRounds_cons, decryptRounds_cons, Square.substitute_unsubstitute,
      Square.shiftRows_unshiftRows, Square.map_map Column.mix_unmix, Square.add_add,
      encryptRounds_decryptRounds (l :: ks)]

theorem decryptSquare_encryptSquare :
    ∀ (ks : List Square) (s : Square), decryptSquare ks (encryptSquare ks s) = s
  | [], _ => rfl
  | k :: ks, s => by
    rw [encryptSquare, decryptSquare, decryptRounds_encryptRounds, Square.add_add]

theorem encryptSquare_decryptSquare :
    ∀ (ks : List Square) (s : Square), encryptSquare ks (decryptSquare ks s) = s
  | [], _ => rfl
  | k :: ks, s => by
    rw [encryptSquare, decryptSquare, Square.add_add, encryptRounds_decryptRounds]

theorem lawful : cipher.Lawful where
  length_encrypt _ _ _ _ := Square.length_toBytes _
  length_decrypt _ _ _ _ := Square.length_toBytes _
  decrypt_encrypt key block _ hb := by
    change (decryptSquare _
      (.ofBytes (encryptSquare (roundKeys key) (.ofBytes block)).toBytes)).toBytes = _
    rw [Square.ofBytes_toBytes, decryptSquare_encryptSquare, Square.toBytes_ofBytes hb]
  encrypt_decrypt key block _ hb := by
    change (encryptSquare _
      (.ofBytes (decryptSquare (roundKeys key) (.ofBytes block)).toBytes)).toBytes = _
    rw [Square.ofBytes_toBytes, encryptSquare_decryptSquare, Square.toBytes_ofBytes hb]

end SealedText.Aes
