import SealedText.Proofs.MemberIntegrity
import SealedText.Proofs.PackedBits

/-!
# Members of stored blocks

A frame around deflated data is a member that holds what was deflated (`holds_frame`). Any data can
be put into stored blocks (`deflated_storedBlocks`), so some member holds it (`holds_stored`).
-/

namespace SealedText.Gzip

variable {a : ByteArray} {i n : Nat}

/-! ## Bytes in front and behind -/

theorem byteAt_pack (bytes : Bytes) (i : Nat) :
    byteAt (Utf8.pack bytes) i = (bytes[i]?.getD 0).toNat := by
  unfold byteAt
  split_ifs with hi
  · rw [Utf8.size_pack] at hi
    rw [List.getElem?_eq_getElem hi]
    rfl
  · rw [Utf8.size_pack] at hi
    rw [List.getElem?_eq_none (by omega)]
    rfl

theorem extract_append_middle (a b c : ByteArray) :
    (a ++ (b ++ c)).extract a.size (a.size + b.size) = b :=
  calc
    (a ++ (b ++ c)).extract (a.size + 0) (a.size + b.size) = (b ++ c).extract 0 b.size :=
      ByteArray.extract_append_size_add
    _ = b := ByteArray.extract_append_eq_left rfl

/-! ## Blocks -/

section Block

variable {file before bytes rest out : ByteArray} {final last : Bool}

theorem readBits_flag (h : i < a.size) : readBits a (8 * i) 1 = .ok (byteAt a i % 2) := by
  refine readBits_eq_ok.2 ⟨by omega, ?_⟩
  rw [Nat.mul_div_cancel_left i (by decide), Nat.mul_mod_right, windowAt]
  omega

theorem readBits_kind (h : i < a.size) : readBits a (8 * i + 1) 2 = .ok (byteAt a i / 2 % 4) := by
  refine readBits_eq_ok.2 ⟨by omega, ?_⟩
  rw [show (8 * i + 1) / 8 = i by omega, show (8 * i + 1) % 8 = 1 by omega, windowAt]
  omega

theorem readBits_word (h : i + 2 ≤ a.size) :
    readBits a (8 * i) 16 = .ok (byteAt a i + 256 * byteAt a (i + 1)) := by
  refine readBits_eq_ok.2 ⟨by omega, ?_⟩
  have hfirst := byteAt_lt a i
  have hsecond := byteAt_lt a (i + 1)
  rw [Nat.mul_div_cancel_left i (by decide), Nat.mul_mod_right, windowAt]
  omega

/-- The five bytes in front of stored bytes. -/
theorem byteAt_storedHeader (hn : n ≤ maxStored)
    (hfile : file = before ++ (⟨(storedHeader final n).toArray⟩ ++ rest)) :
    byteAt file before.size = (if final then 1 else 0) ∧
      byteAt file (before.size + 1) + 256 * byteAt file (before.size + 2) = n ∧
      byteAt file (before.size + 3) + 256 * byteAt file (before.size + 4) = maxStored - n := by
  have hat : ∀ k < 5, byteAt file (before.size + k) =
      byteAt ⟨(storedHeader final n).toArray⟩ k := fun k hk => by
    rw [hfile, byteAt_append_right, byteAt_append_left hk]
  rw [maxStored] at hn ⊢
  have hlow : ∀ m, (UInt8.ofNat m).toNat = m % 256 := fun m => UInt8.toNat_ofNat'
  refine ⟨?_, ?_, ?_⟩
  · rw [← Nat.add_zero before.size, hat 0 (by decide)]
    cases final <;> rfl
  · rw [hat 1 (by decide), hat 2 (by decide)]
    have hfirst : byteAt ⟨(storedHeader final n).toArray⟩ 1 = n % 256 := hlow n
    have hsecond : byteAt ⟨(storedHeader final n).toArray⟩ 2 = n / 256 % 256 := hlow (n / 256)
    omega
  · rw [hat 3 (by decide), hat 4 (by decide)]
    have hfirst : byteAt ⟨(storedHeader final n).toArray⟩ 3 = (65535 - n) % 256 := hlow (65535 - n)
    have hsecond : byteAt ⟨(storedHeader final n).toArray⟩ 4 = (65535 - n) / 256 % 256 :=
      hlow ((65535 - n) / 256)
    omega

theorem readHeader_stored (hn : n ≤ maxStored)
    (hfile : file = before ++ (⟨(storedHeader final n).toArray⟩ ++ rest)) :
    readHeader file ⟨8 * before.size, out, .header, last⟩ =
      .ok ⟨8 * (before.size + 5), out, if n = 0 then modeAfterBlock final else .stored n,
        final⟩ := by
  obtain ⟨hfinal, hlength, hcomplement⟩ := byteAt_storedHeader hn hfile
  have hsize : file.size = before.size + 5 + rest.size := by
    rw [hfile, ByteArray.size_append, ByteArray.size_append]
    exact (Nat.add_assoc ..).symm
  have hlast : readBits file (8 * before.size) 1 = .ok (if final then 1 else 0) := by
    rw [readBits_flag (by omega), hfinal]
    cases final <;> rfl
  have hkind : readBits file (8 * before.size + 1) 2 = .ok 0 := by
    rw [readBits_kind (by omega), hfinal]
    cases final <;> rfl
  have hread := readBits_word (by omega : before.size + 1 + 2 ≤ file.size)
  have hread₁ := readBits_word (by omega : before.size + 3 + 2 ≤ file.size)
  rw [hlength] at hread
  rw [hcomplement] at hread₁
  have halign : (8 * before.size + 3 + 7) / 8 * 8 = 8 * (before.size + 1) := by omega
  have hnext : 8 * (before.size + 1) + 16 = 8 * (before.size + 3) := by omega
  have hsum : n + (maxStored - n) = 65535 := by
    rw [maxStored] at hn ⊢
    omega
  simp only [readHeader, hlast, hkind, ok_bind, if_pos, halign, hread, hnext, hread₁]
  rw [if_neg (by omega)]
  cases final <;> rfl

theorem inflating_block (final : Bool) (bytes rest : ByteArray) (hbytes : bytes.size ≤ maxStored)
    (hfile : file =
      before ++ (⟨(storedHeader final bytes.size).toArray⟩ ++ (bytes ++ rest))) :
    Inflating file ⟨8 * before.size, out, .header, last⟩
      ⟨8 * (before.size + 5 + bytes.size), out ++ bytes, modeAfterBlock final, final⟩ := by
  have hheader : step file ⟨8 * before.size, out, .header, last⟩ = _ :=
    readHeader_stored hbytes hfile
  by_cases hnone : bytes.size = 0
  · rw [if_pos hnone] at hheader
    rw [hnone, ByteArray.size_eq_zero_iff.1 hnone, ByteArray.append_empty]
    exact .piece hheader (.refl _)
  · rw [if_neg hnone] at hheader
    refine .piece hheader (.piece ?_ (.refl _))
    have hfront : (before ++ ⟨(storedHeader final bytes.size).toArray⟩).size = before.size + 5 :=
      ByteArray.size_append
    rw [← ByteArray.append_assoc] at hfile
    have hstart : 8 * (before.size + 5) / 8 = before.size + 5 := by omega
    have hsize : file.size = before.size + 5 + (bytes.size + rest.size) := by
      rw [hfile, ByteArray.size_append, hfront, ByteArray.size_append]
    have hcount : storedCount file ⟨8 * (before.size + 5), out, .stored bytes.size, final⟩
        bytes.size = bytes.size := by
      rw [storedCount, hstart, hsize]
      omega
    have hextract : file.extract (before.size + 5) (before.size + 5 + bytes.size) = bytes := by
      rw [hfile, ← hfront]
      exact extract_append_middle _ bytes rest
    rw [step_stored rfl, hcount, if_neg hnone, if_pos rfl]
    simp only [hstart, hextract]
    rw [Nat.mul_add 8 (before.size + 5)]

end Block

section Stored

variable {data : ByteArray} {start : Nat}

theorem storeFrom_append (before : ByteArray) : ∀ (fuel start : Nat) (out : ByteArray),
    storeFrom data fuel start (before ++ out) = before ++ storeFrom data fuel start out
  | 0, start, out => rfl
  | fuel + 1, start, out => by
    rw [storeFrom, storeFrom]
    simp only [ByteArray.append_assoc]
    split_ifs
    · rfl
    · exact storeFrom_append before fuel _ _

/-- Blocks are put behind what is there. -/
theorem storeFrom_eq (before : ByteArray) (fuel start : Nat) :
    storeFrom data fuel start before = before ++ storeFrom data fuel start .empty := by
  rw [← storeFrom_append, ByteArray.append_empty]

theorem storeFrom_last (h : data.size - start ≤ maxStored) (fuel : Nat) (before : ByteArray) :
    storeFrom data (fuel + 1) start before =
      before ++ ⟨(storedHeader true (data.size - start)).toArray⟩ ++
        data.extract start (start + (data.size - start)) := by
  rw [storeFrom, Nat.min_eq_left h, if_pos rfl, beq_self_eq_true]

theorem storeFrom_more (h : maxStored < data.size - start) (fuel : Nat) (before : ByteArray) :
    storeFrom data (fuel + 1) start before =
      storeFrom data fuel (start + maxStored) (before ++
        ⟨(storedHeader false maxStored).toArray⟩ ++ data.extract start (start + maxStored)) := by
  have hne : data.size - start ≠ maxStored := by omega
  rw [storeFrom, Nat.min_eq_right (Nat.le_of_lt h), if_neg hne, beq_eq_false_iff_ne.2 hne]

theorem inflating_lastBlock (after before out : ByteArray) (last : Bool)
    (hstart : start ≤ data.size) (h : data.size - start ≤ maxStored) {fuel : Nat} :
    Inflating (storeFrom data (fuel + 1) start before ++ after)
      ⟨8 * before.size, out, .header, last⟩
      ⟨8 * (storeFrom data (fuel + 1) start before).size, out ++ data.extract start data.size,
        .finished, true⟩ := by
  have hend : start + (data.size - start) = data.size := by omega
  have hbytes : (data.extract start data.size).size = data.size - start := by
    rw [ByteArray.size_extract, Nat.min_self]
  have hstored := storeFrom_last h fuel before
  rw [hend] at hstored
  have hblock : Inflating (storeFrom data (fuel + 1) start before ++ after)
      ⟨8 * before.size, out, .header, last⟩ _ :=
    inflating_block true (data.extract start data.size) after (by rw [hbytes]; exact h)
      (by rw [hstored, hbytes, ByteArray.append_assoc, ByteArray.append_assoc])
  have hsize : (storeFrom data (fuel + 1) start before).size =
      before.size + 5 + (data.extract start data.size).size := by
    rw [hstored, ByteArray.size_append, ByteArray.size_append]
    rfl
  rw [hsize]
  exact hblock

/-- Stored blocks inflate to what was stored, whatever stands in front of them and behind. -/
theorem inflating_storeFrom (after : ByteArray) : ∀ (fuel : Nat) {start : Nat}
    (before out : ByteArray) (last : Bool), start ≤ data.size →
      data.size - start ≤ (fuel + 1) * maxStored →
        Inflating (storeFrom data (fuel + 1) start before ++ after)
          ⟨8 * before.size, out, .header, last⟩
          ⟨8 * (storeFrom data (fuel + 1) start before).size, out ++ data.extract start data.size,
            .finished, true⟩ := by
  intro fuel
  induction fuel with
  | zero =>
    intro start before out last hstart hfuel
    exact inflating_lastBlock after before out last hstart (by omega)
  | succ fuel ih =>
    intro start before out last hstart hfuel
    by_cases hleft : data.size - start ≤ maxStored
    · exact inflating_lastBlock after before out last hstart hleft
    obtain ⟨bytes, hbytes⟩ : ∃ bytes, bytes = data.extract start (start + maxStored) := ⟨_, rfl⟩
    have hcount : bytes.size = maxStored := by
      rw [hbytes, ByteArray.size_extract]
      omega
    have hstored := storeFrom_more (Nat.lt_of_not_le hleft) (fuel + 1) before
    rw [← hbytes] at hstored
    have hblock : Inflating (storeFrom data (fuel + 1 + 1) start before ++ after)
        ⟨8 * before.size, out, .header, last⟩ _ :=
      inflating_block false bytes (storeFrom data (fuel + 1) (start + maxStored) .empty ++ after)
        (Nat.le_of_eq hcount) (by
          rw [hstored, storeFrom_eq, hcount]
          simp only [ByteArray.append_assoc])
    have hrest := ih (before ++ ⟨(storedHeader false maxStored).toArray⟩ ++ bytes) (out ++ bytes)
      false (by omega : start + maxStored ≤ data.size) (by rw [Nat.succ_mul] at hfuel; omega)
    have hsize : (before ++ ⟨(storedHeader false maxStored).toArray⟩ ++ bytes).size =
        before.size + 5 + bytes.size := by
      rw [ByteArray.size_append, ByteArray.size_append]
      rfl
    rw [hsize, ← hstored, ByteArray.append_assoc, hbytes,
      ← ByteArray.extract_eq_extract_append_extract (start + maxStored) (by omega) (by omega),
      ← hbytes] at hrest
    exact hblock.trans hrest

/-- There are enough blocks to store all data. -/
theorem size_le_blocks (data : ByteArray) :
    data.size - 0 ≤ (data.size / maxStored + 1) * maxStored := by
  have hmod := Nat.mod_lt data.size (show 0 < maxStored by decide)
  have hdiv := Nat.div_add_mod' data.size maxStored
  rw [Nat.succ_mul]
  omega

/-- Deflated data inflates to some data, whatever stands in front of it and behind. -/
def Deflated (deflated data : ByteArray) : Prop :=
  ∀ before after : ByteArray, ∃ s, Inflating (before ++ deflated ++ after) (.atByte before.size) s ∧
    s.mode = .finished ∧ s.out = data ∧ (s.pos + 7) / 8 = before.size + deflated.size

theorem deflated_storedBlocks (data : ByteArray) : Deflated (storedBlocks data) data := by
  intro before after
  have hinflating := inflating_storeFrom after (data.size / maxStored) before .empty false
    (Nat.zero_le _) (size_le_blocks data)
  rw [storeFrom_eq, ← storedBlocks, ByteArray.empty_append, ByteArray.extract_zero_size]
    at hinflating
  refine ⟨_, hinflating, rfl, rfl, ?_⟩
  rw [Nat.mul_add_div (by decide), Nat.add_zero, ByteArray.size_append]

end Stored

/-! ## Members -/

section Members

variable {data deflated : ByteArray}

theorem littleEndianAt_append_right (a b : ByteArray) : ∀ (width i : Nat),
    littleEndianAt (a ++ b) (a.size + i) width = littleEndianAt b i width
  | 0, _ => rfl
  | width + 1, i => by
    rw [littleEndianAt, littleEndianAt, byteAt_append_right, Nat.add_assoc,
      littleEndianAt_append_right a b width]

theorem littleEndianAt_littleEndian (after : Bytes) : ∀ (width n : Nat) (before : Bytes),
    littleEndianAt (Utf8.pack (before ++ littleEndian width n ++ after)) before.length width =
      n % 256 ^ width
  | 0, n, before => (Nat.mod_one n).symm
  | width + 1, n, before => by
    have hrest := littleEndianAt_littleEndian after width (n / 256) (before ++ [UInt8.ofNat n])
    have hform : before ++ littleEndian (width + 1) n ++ after =
        before ++ [UInt8.ofNat n] ++ littleEndian width (n / 256) ++ after := by
      simp [littleEndian]
    have hbyte : byteAt (Utf8.pack (before ++ littleEndian (width + 1) n ++ after)) before.length =
        n % 256 := by
      rw [byteAt_pack, littleEndian, List.append_assoc, List.getElem?_append_right (Nat.le_refl _),
        Nat.sub_self]
      exact UInt8.toNat_ofNat'
    rw [← hform, List.length_append] at hrest
    rw [littleEndianAt, hbyte, Nat.pow_succ', Nat.mod_mul]
    exact congrArg (n % 256 + 256 * ·) hrest

theorem trailer_littleEndian (data front : ByteArray) :
    Trailer (front ++ Utf8.pack (littleEndian 4 (crc32 data).toNat ++ littleEndian 4 data.size))
      front.size data := by
  have hchecksum := littleEndianAt_littleEndian (littleEndian 4 data.size) 4 (crc32 data).toNat []
  have hlength := littleEndianAt_littleEndian [] 4 data.size (littleEndian 4 (crc32 data).toNat)
  rw [List.append_nil, length_littleEndian] at hlength
  refine ⟨?_, ?_, ?_⟩
  · rw [ByteArray.size_append, Utf8.size_pack, List.length_append, length_littleEndian,
      length_littleEndian, trailerSize]
  · rw [← Nat.add_zero front.size, littleEndianAt_append_right]
    exact hchecksum.trans (Nat.mod_eq_of_lt (UInt32.toNat_lt _))
  · rw [littleEndianAt_append_right]
    exact hlength

/-- The ten bytes in front of deflated data. -/
theorem hasHeader_frame (hint : UInt8) (after : ByteArray) :
    HasHeader (Utf8.pack [0x1f, 0x8b, 8, 0, 0, 0, 0, 0, hint, 255] ++ after) 10 := by
  have hat : ∀ k < 10, byteAt (Utf8.pack [0x1f, 0x8b, 8, 0, 0, 0, 0, 0, hint, 255] ++ after) k =
      byteAt (Utf8.pack [0x1f, 0x8b, 8, 0, 0, 0, 0, 0, hint, 255]) k :=
    fun k hk => byteAt_append_left hk
  have hflags : byteAt (Utf8.pack [0x1f, 0x8b, 8, 0, 0, 0, 0, 0, hint, 255] ++ after) 3 = 0 :=
    hat 3 (by decide)
  refine ⟨10, 10, 10, ?_, ⟨hat 0 (by decide), hat 1 (by decide)⟩, hat 2 (by decide), ?_, ?_, ?_, ?_,
    ?_⟩
  · rw [ByteArray.size_append]
    exact Nat.le_add_right ..
  · rw [hflags]
    decide
  all_goals
    rw [Part, hflags]
    rfl

/-- A frame around deflated data is a member that holds what was deflated. -/
theorem holds_frame (level : Nat) (h : Deflated deflated data) :
    Holds (frame level data deflated) data := by
  obtain ⟨header, hheader⟩ : ∃ header, header =
    Utf8.pack [0x1f, 0x8b, 8, 0, 0, 0, 0, 0, effortHint level, 255] := ⟨_, rfl⟩
  have hsize : header.size = 10 := by
    rw [hheader]
    rfl
  have hframe : frame level data deflated = header ++ deflated ++
      Utf8.pack (littleEndian 4 (crc32 data).toNat ++ littleEndian 4 data.size) := by
    rw [hheader]
    rfl
  obtain ⟨s, hinflating, hdone, hout, hend⟩ := h header
    (Utf8.pack (littleEndian 4 (crc32 data).toNat ++ littleEndian 4 data.size))
  rw [← hframe, hsize] at hinflating
  refine ⟨10, s, ?_, hinflating, hdone, hout, ?_⟩
  · rw [hframe, ByteArray.append_assoc, hheader]
    exact hasHeader_frame (effortHint level) _
  · rw [hframe, hend, ← ByteArray.size_append]
    exact trailer_littleEndian data _

theorem holds_stored (level : Nat) (data : ByteArray) :
    Holds (frame level data (storedBlocks data)) data :=
  holds_frame level (deflated_storedBlocks data)

end Members

end SealedText.Gzip
