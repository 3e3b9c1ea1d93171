import SealedText.Proofs.PayloadRoundTrip

/-!
# Texts beyond the limit

Readers take no more than the limit out of a gzip form, while writers compress texts of any length.
A text is read back exactly if it is within the limit or its gzip form is not shorter; any other is
too long to be read (`ofText_exact`), although its gzip form is in order.
-/

namespace SealedText

namespace Payload

variable {level : Nat} {text : String}

theorem head_ofText (level : Nat) (text : String) :
    (ofText level text).head? = some
      (if (Gzip.compress (min level maxLevel) text.toUTF8).size < text.toUTF8.size then 1
      else 0) := by
  by_cases hshort :
      (Gzip.compress (min level maxLevel) text.toUTF8).size < text.toUTF8.size
  · rw [ofText, if_pos hshort, if_pos hshort]
    rfl
  · rw [ofText, if_neg hshort, if_neg hshort]
    rfl

theorem textOf_ok {body : ByteArray} (h : textOf body = .ok (.text text)) :
    text.toUTF8 = body := by
  unfold textOf at h
  split at h
  · rename_i found hfound
    cases h
    exact Utf8.toUTF8_of_decode hfound
  · cases h

/-- What is read from a gzip form is within the limit. -/
theorem size_of_read {gz : ByteArray}
    (h : read (PayloadKind.gzip.toByte :: gz.data.toList) = .ok (.text text)) :
    text.toUTF8.size ≤ maxUnpacked := by
  rw [read, PayloadKind.ofByte?_toByte] at h
  simp only [Utf8.pack_toList] at h
  split at h
  · rename_i raw hraw
    rw [textOf_ok h]
    exact (Gzip.decompress_ok_iff.1 hraw).2
  · cases h

theorem read_ofText_iff (level : Nat) (text : String) :
    read (ofText level text) = .ok (.text text) ↔
      text.toUTF8.size ≤ maxUnpacked ∨
        text.toUTF8.size ≤ (Gzip.compress (min level maxLevel) text.toUTF8).size := by
  by_cases hshort :
      (Gzip.compress (min level maxLevel) text.toUTF8).size < text.toUTF8.size
  · constructor
    · intro h
      rw [ofText, if_pos hshort] at h
      exact .inl (size_of_read h)
    · rintro (hfits | hlong)
      · exact read_ofText level hfits
      · exact absurd hshort (Nat.not_lt.2 hlong)
  · refine iff_of_true ?_ (.inr (Nat.not_lt.1 hshort))
    rw [ofText, if_neg hshort, read, PayloadKind.ofByte?_toByte]
    simp only [Utf8.pack_toList, textOf_toUTF8]

theorem read_of_tooLong {level : Nat} {text : String} (hlong : maxUnpacked < text.toUTF8.size)
    (hshort : (Gzip.compress (min level maxLevel) text.toUTF8).size < text.toUTF8.size) :
    read (ofText level text) = .error (.gzip .tooLong) := by
  rw [ofText, if_pos hshort, read, PayloadKind.ofByte?_toByte]
  simp only [Utf8.pack_toList, Gzip.decompress_compress_of_lt _ hlong]

/-- The payload of a text is its gzip form if that is shorter than its bytes, and its bytes
otherwise. It reads back exactly if the bytes are within the limit or stand as they are; a longer
text in a gzip form is refused for its length. -/
theorem ofText_exact (level : Nat) (text : String) :
    let raw := text.toUTF8
    let short := Gzip.compress (min level maxLevel) raw
    (ofText level text).length = 1 + min raw.size short.size ∧
      (ofText level text).head? = some (if short.size < raw.size then 1 else 0) ∧
      (read (ofText level text) = .ok (.text text) ↔
        raw.size ≤ maxUnpacked ∨ raw.size ≤ short.size) ∧
      (maxUnpacked < raw.size → short.size < raw.size →
        read (ofText level text) = .error (.gzip .tooLong)) := by
  exact ⟨length_ofText level text, head_ofText level text, read_ofText_iff level text,
    fun hlong hshort => read_of_tooLong hlong hshort⟩

/-! ## Runs of one character -/

theorem toList_toUTF8_run {c : Char} {b : UInt8} (hc : String.utf8EncodeChar c = [b]) (n : Nat) :
    (String.ofList (List.replicate n c)).toUTF8.data.toList = List.replicate n b := by
  rw [← byteArray_toList, toList_toUTF8, String.toList_ofList, List.flatMap_replicate, hc]
  induction n with
  | zero => rfl
  | succ n ih => rw [List.replicate_succ, List.flatten_cons, ih, List.replicate_succ]; rfl

/-- A long run of one character is shorter in its gzip form. -/
theorem size_compress_run_lt {level n : Nat} (hlevel : level ≠ 0) (hn : 1000 ≤ n) {c : Char}
    {b : UInt8} (hc : String.utf8EncodeChar c = [b]) :
    (String.ofList (List.replicate n c)).toUTF8.size = n ∧
      (Gzip.compress (min level maxLevel)
        (String.ofList (List.replicate n c)).toUTF8).size < n := by
  have hbytes := toList_toUTF8_run hc n
  have hlevel : min level maxLevel ≠ 0 := by
    rw [maxLevel]
    omega
  have hshort := Gzip.size_compress_run_le hlevel (Nat.lt_of_lt_of_le (by decide) hn) hbytes
  have hsize := congrArg List.length hbytes
  rw [List.length_replicate] at hsize
  exact ⟨hsize, by omega⟩

theorem longRun_refused :
    let text := String.ofList (List.replicate 16777217 'a')
    (ofText 9 text).head? = some 1 ∧ read (ofText 9 text) ≠ .ok (.text text) ∧
      read (ofText 9 text) = .error (.gzip .tooLong) := by
  intro text
  have hlevel : (9 : Nat) ≠ 0 := by decide
  have hn : 1000 ≤ 16777217 := by decide
  have hchar : String.utf8EncodeChar 'a' = [97] := rfl
  obtain ⟨hsize, hless⟩ := size_compress_run_lt hlevel hn hchar
  have hlong : maxUnpacked < text.toUTF8.size := Nat.lt_of_lt_of_eq (by decide) hsize.symm
  have hshort : (Gzip.compress (min 9 maxLevel) text.toUTF8).size < text.toUTF8.size :=
    Nat.lt_of_lt_of_eq hless hsize.symm
  refine ⟨?_, fun h => ?_, read_of_tooLong hlong hshort⟩
  · rw [head_ofText, if_pos hshort]
  · rcases (read_ofText_iff 9 text).1 h with hfits | hstored
    · exact absurd hlong (Nat.not_lt.2 hfits)
    · exact absurd hshort (Nat.not_lt.2 hstored)

end Payload

end SealedText
