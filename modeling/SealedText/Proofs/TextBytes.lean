import SealedText.Base64
import SealedText.Text.Utf8

/-!
# Texts and their bytes

Every text is read back from its UTF-8 bytes, and a text of ASCII bytes has these bytes again.
-/

namespace SealedText

theorem byteArrayLoop_eq (b : ByteArray) (i : Nat) (seen : List UInt8) :
    ByteArray.toList.loop b i seen = seen.reverse ++ b.data.toList.drop i := by
  fun_induction ByteArray.toList.loop b i seen with
  | case1 i seen h ih =>
    have hi : i < b.data.toList.length := by simpa using h
    rw [ih, List.drop_eq_getElem_cons hi]
    simp [ByteArray.get!, getElem!_pos, h]
  | case2 i seen h =>
    have hi : b.data.toList.length ≤ i := by simpa using h
    rw [List.drop_of_length_le hi, List.append_nil]

theorem byteArray_toList (b : ByteArray) : b.toList = b.data.toList := by
  rw [ByteArray.toList, byteArrayLoop_eq, List.reverse_nil, List.nil_append, List.drop_zero]

namespace Utf8

theorem pack_toList (b : ByteArray) : pack b.data.toList = b := rfl

theorem size_pack (bytes : List UInt8) : (pack bytes).size = bytes.length := List.size_toArray

theorem decode_toUTF8 (text : String) : decode text.toUTF8 = .ok text := by
  rw [decode, String.fromUTF8?, String.toUTF8_eq_toByteArray, dif_pos text.isValidUTF8]
  rfl

theorem toUTF8_of_decode {data : ByteArray} {text : String} (h : decode data = .ok text) :
    text.toUTF8 = data := by
  rw [decode, String.fromUTF8?] at h
  split at h
  · rename_i found hfound
    cases h
    split at hfound
    · cases hfound
      rfl
    · cases hfound
  · cases h

end Utf8

theorem toList_toUTF8 (text : String) :
    text.toUTF8.toList = text.toList.flatMap String.utf8EncodeChar := by
  have htext : text.toUTF8 = (String.ofList text.toList).toUTF8 := by rw [String.ofList_toList]
  have hbytes : (String.ofList text.toList).toUTF8 = text.toList.utf8Encode := rfl
  rw [htext, hbytes, byteArray_toList, List.utf8Encode, List.toList_data_toByteArray]

theorem data_toUTF8_append (x y : String) :
    (x ++ y).toUTF8.data.toList = x.toUTF8.data.toList ++ y.toUTF8.data.toList := by
  simp only [String.toUTF8_eq_toByteArray, String.toByteArray_append, ByteArray.data_append,
    Array.toList_append]

theorem eq_of_toUTF8 {x y : String} (h : x.toUTF8.data.toList = y.toUTF8.data.toList) : x = y :=
  String.toByteArray_inj.1 (ByteArray.ext (Array.toList_inj.1 h))

/-- A text whose bytes start with those of another starts with the other. -/
theorem exists_append_of_toUTF8 {x y : String} {rest : Bytes}
    (h : x.toUTF8.data.toList = y.toUTF8.data.toList ++ rest) :
    ∃ z, x = y ++ z ∧ z.toUTF8.data.toList = rest := by
  have hbytes : y.toList.utf8Encode ++ rest.toByteArray = x.toList.utf8Encode := by
    rw [← byteArray_toList, ← byteArray_toList, toList_toUTF8, toList_toUTF8] at h
    rw [List.utf8Encode, List.utf8Encode, ← List.toByteArray_append, h]
  obtain ⟨cs, hcs⟩ := List.isPrefix_of_utf8Encode_append_eq_utf8Encode _ hbytes
  have hx : x = y ++ String.ofList cs := by
    rw [← String.toList_inj, String.toList_append, String.toList_ofList, hcs]
  refine ⟨String.ofList cs, hx, ?_⟩
  rw [hx, data_toUTF8_append] at h
  exact List.append_cancel_left h

theorem utf8EncodeChar_ofNat :
    ∀ n < 128, String.utf8EncodeChar (Char.ofNat n) = [UInt8.ofNat n] := by
  decide

namespace Base64

theorem toList_asciiText (bytes : Bytes) :
    (asciiText bytes).toList = bytes.map fun b => Char.ofNat b.toNat := by
  rw [asciiText, String.toList_ofList]

theorem toUTF8_asciiText {bytes : Bytes} (h : ∀ b ∈ bytes, b < 128) :
    (asciiText bytes).toUTF8.toList = bytes := by
  rw [toList_toUTF8, toList_asciiText, List.flatMap_map]
  induction bytes with
  | nil => rfl
  | cons b bytes ih =>
    obtain ⟨hb, hbytes⟩ := List.forall_mem_cons.1 h
    rw [List.flatMap_cons, utf8EncodeChar_ofNat b.toNat hb, ih hbytes, UInt8.ofNat_toNat,
      List.singleton_append]

end Base64

end SealedText
