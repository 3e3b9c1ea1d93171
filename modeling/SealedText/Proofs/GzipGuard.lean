import SealedText.Proofs.PayloadLimit
import SealedText.Proofs.StoredMembers

/-!
# Gzip forms within and beyond the limit

The limit on what a gzip form may unfold to takes nothing from the checks of its member. A form is
read as a text exactly if it starts with a member of that text that is within the limit, and it is
too long exactly if it yields more, whatever stands behind (`Payload.gzip_guarded`).
-/

namespace SealedText

/-- Data that is the same up to the byte of a position. -/
theorem agree_take_append {bytes : Bytes} {pos : Nat} (h : pos ≤ 8 * (Utf8.pack bytes).size)
    (following : Bytes) : Gzip.Agree (Utf8.pack bytes)
      (Utf8.pack (bytes.take ((pos + 7) / 8) ++ following)) pos := by
  rw [Utf8.size_pack] at h
  have hfront : (bytes.take ((pos + 7) / 8)).length = (pos + 7) / 8 :=
    List.length_take_of_le (by omega)
  refine ⟨?_, fun i hi => ?_⟩
  · rw [Utf8.size_pack, List.length_append, hfront]
    omega
  · rw [Gzip.byteAt_pack, Gzip.byteAt_pack, List.getElem?_append_left (by omega),
      List.getElem?_take, if_pos (by omega)]

namespace Payload

variable {body : Bytes}

theorem read_gzip (body : Bytes) : read (1 :: body) =
    match Gzip.decompress maxUnpacked (Utf8.pack body) with
    | .ok raw => textOf raw
    | .error fault => .error (.gzip fault) := rfl

theorem read_gzip_ok_iff {text : String} : read (1 :: body) = .ok (.text text) ↔
    Gzip.Holds (Utf8.pack body) text.toUTF8 ∧ text.toUTF8.size ≤ maxUnpacked := by
  rw [← Gzip.decompress_ok_iff, read_gzip]
  constructor
  · intro h
    split at h
    · rename_i raw hraw
      rw [textOf_ok h]
      exact hraw
    · cases h
  · intro h
    rw [h]
    exact textOf_toUTF8 text

theorem read_gzip_tooLong_iff : read (1 :: body) = .error (.gzip .tooLong) ↔
    Gzip.YieldsMore (Utf8.pack body) maxUnpacked := by
  rw [← Gzip.decompress_tooLong_iff, read_gzip]
  constructor
  · intro h
    split at h
    · rename_i raw hraw
      unfold textOf at h
      split at h <;> cases h
    · rename_i fault hfault
      cases h
      exact hfault
  · intro h
    rw [h]

/-- A gzip form is read as a text exactly if it starts with a member of the bytes of that text that
is within the limit, its checksum and its length included. It is too long exactly if it yields more
bytes than the limit, and then whatever stands behind the bytes that passed the limit. -/
theorem gzip_guarded (body : Bytes) :
    (∀ text : String, read (1 :: body) = .ok (.text text) ↔
      Gzip.Holds (Utf8.pack body) text.toUTF8 ∧ text.toUTF8.size ≤ 16777216) ∧
    (read (1 :: body) = .error (.gzip .tooLong) ↔
      Gzip.YieldsMore (Utf8.pack body) 16777216) ∧
    ∀ (start : Nat) (s : Gzip.InflateState), Gzip.HasHeader (Utf8.pack body) start →
      Gzip.Inflating (Utf8.pack body) (.atByte start) s → 16777216 < s.out.size →
        ∀ following : Bytes, read (1 :: (body.take ((s.pos + 7) / 8) ++ following)) =
          .error (.gzip .tooLong) := by
  refine ⟨fun text => read_gzip_ok_iff, read_gzip_tooLong_iff, ?_⟩
  intro start s hheader hinflating hlong following
  have hwithin := Gzip.within_atByte hheader.le_size
  obtain ⟨⟨-, hpos⟩, -, -⟩ := hinflating.within hwithin
  exact read_gzip_tooLong_iff.2 (Gzip.yieldsMore_of_agree hheader hinflating hlong
    (agree_take_append hpos following))

/-- In stored blocks, a run of as many bytes as the limit is read, and one of a byte more is too
long even without its trailer. -/
theorem storedRun_guarded :
    let text := fun n => String.ofList (List.replicate n 'a')
    let member := fun n =>
      (Gzip.frame 0 (text n).toUTF8 (Gzip.storedBlocks (text n).toUTF8)).data.toList
    read (1 :: member 16777216) = .ok (.text (text 16777216)) ∧
      ∃ k < (member 16777217).length, ∀ following : Bytes,
        read (1 :: ((member 16777217).take k ++ following)) = .error (.gzip .tooLong) := by
  intro text member
  have hsize : ∀ n, (text n).toUTF8.size = n := fun n => by
    have hlength := congrArg List.length (toList_toUTF8_run (c := 'a') rfl n)
    rwa [List.length_replicate] at hlength
  have hpack : ∀ n, Utf8.pack (member n) =
      Gzip.frame 0 (text n).toUTF8 (Gzip.storedBlocks (text n).toUTF8) :=
    fun n => Utf8.pack_toList _
  have hholds : ∀ n, Gzip.Holds (Utf8.pack (member n)) (text n).toUTF8 := fun n => by
    rw [hpack]
    exact Gzip.holds_stored 0 _
  constructor
  · exact ((gzip_guarded (member 16777216)).1 (text 16777216)).2
      ⟨hholds 16777216, Nat.le_of_eq (hsize 16777216)⟩
  · obtain ⟨start, s, hheader, hinflating, -, hout, htrailer⟩ := hholds 16777217
    have hlong : 16777216 < s.out.size := by
      rw [hout, hsize]
      exact Nat.lt_succ_self _
    refine ⟨(s.pos + 7) / 8, ?_,
      (gzip_guarded (member 16777217)).2.2 start s hheader hinflating hlong⟩
    have hwithin := htrailer.within
    rw [Gzip.trailerSize] at hwithin
    exact Nat.lt_of_lt_of_le (Nat.lt_add_of_pos_right (by decide)) hwithin

end Payload

end SealedText
