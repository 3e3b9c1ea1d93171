import SealedText.Gzip.Member
import SealedText.Proofs.InflateReads

/-!
# Headers of gzip members

A header is ten fixed bytes and up to four optional parts, in order: an extra field with its length
in front, a name and a comment of at most `maxHeaderText` bytes that end with a zero byte, and a
checksum of what stands in front of it. `memberStart` accepts exactly these (`memberStart_ok_iff`),
and finds the byte behind them.
-/

namespace SealedText.Gzip

variable {data other : ByteArray} {i j start : Nat}

/-! ## Headers -/

/-- A field with its length in the first two bytes stands between two bytes. -/
def ExtraField (data : ByteArray) (i j : Nat) : Prop :=
  j = i + 2 + littleEndianAt data i 2 ∧ j ≤ data.size

/-- A text of at most so many bytes stands between two bytes, with the zero byte that ends it. -/
def TextUpTo (data : ByteArray) (most i j : Nat) : Prop :=
  i < j ∧ j ≤ i + most + 1 ∧ j ≤ data.size ∧ byteAt data (j - 1) = 0 ∧
    ∀ k, i ≤ k → k + 1 < j → byteAt data k ≠ 0

/-- A name or a comment stands between two bytes. -/
def TextField (data : ByteArray) (i j : Nat) : Prop := TextUpTo data maxHeaderText i j

/-- The checksum of all bytes in front stands between two bytes. -/
def HeaderChecksum (data : ByteArray) (i j : Nat) : Prop :=
  j = i + 2 ∧ j ≤ data.size ∧ littleEndianAt data i 2 = (crc32 (data.extract 0 i)).toNat % 65536

/-- A bit of the flags tells whether a part of the header is there. -/
def Part (data : ByteArray) (bit : Nat) (part : ByteArray → Nat → Nat → Prop) (i j : Nat) : Prop :=
  if (byteAt data 3).testBit bit then part data i j else j = i

/-- The parts of a header, and where each of them ends. -/
structure Header (data : ByteArray) (afterExtra afterName afterComment start : Nat) : Prop where
  fixed : headerSize ≤ data.size
  identified : byteAt data 0 = 0x1f ∧ byteAt data 1 = 0x8b
  deflated : byteAt data 2 = 8
  noOtherFlag : byteAt data 3 < 32
  extra : Part data 2 ExtraField headerSize afterExtra
  name : Part data 3 TextField afterExtra afterName
  comment : Part data 4 TextField afterName afterComment
  checksum : Part data 1 HeaderChecksum afterComment start

/-- The data starts with a header, and what follows it starts at a byte. -/
def HasHeader (data : ByteArray) (start : Nat) : Prop :=
  ∃ afterExtra afterName afterComment, Header data afterExtra afterName afterComment start

/-! ## The reader -/

def skipExtra (data : ByteArray) (i : Nat) : Except MemberFault Nat :=
  if i + 2 > data.size then .error .endOfInput
  else if i + 2 + littleEndianAt data i 2 > data.size then .error .endOfInput
  else .ok (i + 2 + littleEndianAt data i 2)

def skipChecksum (data : ByteArray) (i : Nat) : Except MemberFault Nat :=
  if i + 2 > data.size then .error .endOfInput
  else if littleEndianAt data i 2 ≠ (crc32 (data.extract 0 i)).toNat % 65536 then .error .checksum
  else .ok (i + 2)

/-- Skip a part of a header if it is there, and go on behind it. -/
def skipPart (data : ByteArray) (bit : Nat) (skip rest : Nat → Except MemberFault Nat) (i : Nat) :
    Except MemberFault Nat :=
  if (byteAt data 3).testBit bit then skip i >>= rest else rest i

theorem skipPart_eq (bit : Nat) (skip rest : Nat → Except MemberFault Nat) :
    skipPart data bit skip rest =
      fun i => if (byteAt data 3).testBit bit then skip i >>= rest else rest i := rfl

theorem memberStart_eq (data : ByteArray) : memberStart data =
    if data.size < headerSize then .error .endOfInput
    else if byteAt data 0 ≠ 0x1f || byteAt data 1 ≠ 0x8b || byteAt data 2 ≠ 8 ||
      byteAt data 3 ≥ 32 then .error .header
    else skipPart data 2 (skipExtra data) (skipPart data 3 (skipText data maxHeaderText)
      (skipPart data 4 (skipText data maxHeaderText)
        (skipPart data 1 (skipChecksum data) .ok))) headerSize := by
  simp only [skipPart_eq, skipExtra, skipChecksum, ite_bind, error_bind, ok_bind]
  rfl

theorem skipExtra_ok_iff : skipExtra data i = .ok j ↔ ExtraField data i j := by
  unfold skipExtra ExtraField
  split_ifs with hlength hfield
  · simp
    omega
  · simp
    omega
  · simp [eq_comm]
    omega

theorem skipChecksum_ok_iff : skipChecksum data i = .ok j ↔ HeaderChecksum data i j := by
  unfold skipChecksum HeaderChecksum
  split_ifs with hthere hsame
  · simp
    omega
  · simp [hsame]
  · simp
    omega

theorem textUpTo_of_zero {most : Nat} (hi : i < data.size) (hzero : byteAt data i = 0) :
    TextUpTo data most i j ↔ j = i + 1 := by
  constructor
  · rintro ⟨hlt, -, -, -, hbefore⟩
    rcases Nat.eq_or_lt_of_le hlt with heq | hmore
    · exact heq.symm
    · exact absurd hzero (hbefore i (Nat.le_refl i) hmore)
  · rintro rfl
    exact ⟨by omega, by omega, hi, hzero, fun k hk hlt => by omega⟩

theorem TextUpTo.ne_succ {most : Nat} (h : TextUpTo data most i j) (hne : byteAt data i ≠ 0) :
    j ≠ i + 1 := by
  rintro rfl
  exact hne h.2.2.2.1

theorem textUpTo_of_ne_zero {most : Nat} (hne : byteAt data i ≠ 0) :
    TextUpTo data (most + 1) i j ↔ TextUpTo data most (i + 1) j := by
  constructor
  · intro h
    have hlast := h.ne_succ hne
    obtain ⟨hlt, hmost, hle, hzero, hbefore⟩ := h
    exact ⟨by omega, by omega, hle, hzero, fun k hk => hbefore k (by omega)⟩
  · rintro ⟨hlt, hmost, hle, hzero, hbefore⟩
    refine ⟨by omega, by omega, hle, hzero, fun k hk hkj => ?_⟩
    rcases Nat.eq_or_lt_of_le hk with rfl | hlt₁
    · exact hne
    · exact hbefore k hlt₁ hkj

theorem skipText_ok_iff : ∀ {most i : Nat},
    skipText data most i = .ok j ↔ TextUpTo data most i j
  | most, i => by
    rw [skipText.eq_def]
    split_ifs with hend hzero
    · simp [TextUpTo]
      omega
    · rw [textUpTo_of_zero (by omega) hzero, Except.ok.injEq, eq_comm]
    · cases most with
      | zero =>
        simp only [reduceCtorEq, false_iff]
        intro h
        have hlast := h.ne_succ hzero
        obtain ⟨hlt, hmost, -⟩ := h
        omega
      | succ most => exact skipText_ok_iff.trans (textUpTo_of_ne_zero hzero).symm

theorem skipPart_ok_iff {bit : Nat} {skip rest : Nat → Except MemberFault Nat}
    {part : ByteArray → Nat → Nat → Prop} (hpart : ∀ {i j}, skip i = .ok j ↔ part data i j) :
    skipPart data bit skip rest i = .ok start ↔
      ∃ j, Part data bit part i j ∧ rest j = .ok start := by
  unfold skipPart Part
  split_ifs
  · simp only [bind_eq_ok, hpart]
  · simp

theorem memberStart_ok_iff : memberStart data = .ok start ↔ HasHeader data start := by
  have htext : ∀ {i j}, skipText data maxHeaderText i = .ok j ↔ TextField data i j :=
    skipText_ok_iff
  rw [memberStart_eq]
  split_ifs with hsize hfixed
  · constructor
    · intro h
      cases h
    · rintro ⟨_, _, _, h⟩
      exact absurd h.fixed (by omega)
  · constructor
    · intro h
      cases h
    · rintro ⟨_, _, _, h⟩
      have hflags := h.noOtherFlag
      simp [h.identified, h.deflated] at hfixed
      omega
  · simp only [Bool.or_eq_true, decide_eq_true_eq, not_or, Decidable.not_not] at hfixed
    obtain ⟨⟨⟨hfirst, hsecond⟩, hdeflated⟩, hflags⟩ := hfixed
    rw [skipPart_ok_iff skipExtra_ok_iff]
    simp only [skipPart_ok_iff htext, skipPart_ok_iff skipChecksum_ok_iff, Except.ok.injEq]
    constructor
    · rintro ⟨afterExtra, hextra, afterName, hname, afterComment, hcomment, _, hchecksum, rfl⟩
      exact ⟨afterExtra, afterName, afterComment, by omega, ⟨hfirst, hsecond⟩, hdeflated, by omega,
        hextra, hname, hcomment, hchecksum⟩
    · rintro ⟨afterExtra, afterName, afterComment, h⟩
      exact ⟨afterExtra, h.extra, afterName, h.name, afterComment, h.comment, start, h.checksum,
        rfl⟩

theorem skipPart_ne_tooLong {bit : Nat} {skip rest : Nat → Except MemberFault Nat}
    (hskip : ∀ i, skip i ≠ .error .tooLong) (hrest : ∀ i, rest i ≠ .error .tooLong) (i : Nat) :
    skipPart data bit skip rest i ≠ .error .tooLong := by
  unfold skipPart
  split_ifs
  · rw [ne_eq, bind_eq_error, not_or]
    exact ⟨hskip i, fun ⟨j, _, h⟩ => hrest j h⟩
  · exact hrest i

theorem skipText_ne_tooLong (data : ByteArray) : ∀ most i : Nat,
    skipText data most i ≠ .error .tooLong
  | most, i => by
    rw [skipText.eq_def]
    split_ifs
    · simp
    · simp
    · cases most with
      | zero => simp
      | succ most => exact skipText_ne_tooLong data most (i + 1)

/-- A header is never refused for what the data unfolds to. -/
theorem memberStart_ne_tooLong (data : ByteArray) : memberStart data ≠ .error .tooLong := by
  have hextra : ∀ i, skipExtra data i ≠ .error .tooLong := fun i => by
    unfold skipExtra
    split_ifs <;> simp
  have hchecksum : ∀ i, skipChecksum data i ≠ .error .tooLong := fun i => by
    unfold skipChecksum
    split_ifs <;> simp
  have htext := skipText_ne_tooLong data maxHeaderText
  rw [memberStart_eq]
  split_ifs
  · simp
  · simp
  · exact skipPart_ne_tooLong hextra (skipPart_ne_tooLong htext (skipPart_ne_tooLong htext
      (skipPart_ne_tooLong hchecksum fun i => by simp))) headerSize

/-! ## Other data with the same header -/

theorem littleEndianAt_of_agree {stop : Nat} (h : Agree data other (8 * stop)) :
    ∀ {width i : Nat}, i + width ≤ stop →
      littleEndianAt other i width = littleEndianAt data i width
  | 0, i, _ => rfl
  | width + 1, i, hle => by
    rw [littleEndianAt, littleEndianAt, h.same i (by omega),
      littleEndianAt_of_agree h (by omega : i + 1 + width ≤ stop)]

/-- A part of a header lies within the data and is fixed by its bytes and those in front of it. -/
structure PartReads (part : ByteArray → Nat → Nat → Prop) : Prop where
  bounds : ∀ {data : ByteArray} {i j : Nat}, part data i j → i ≤ j ∧ j ≤ data.size
  agree : ∀ {data other : ByteArray} {i j : Nat}, part data i j → Agree data other (8 * j) →
    part other i j

theorem partReads_extraField : PartReads ExtraField where
  bounds h := by
    obtain ⟨rfl, hle⟩ := h
    exact ⟨by omega, hle⟩
  agree h hagree := by
    obtain ⟨rfl, hle⟩ := h
    have hwithin := hagree.within
    exact ⟨by rw [littleEndianAt_of_agree hagree (by omega)], by omega⟩

theorem partReads_textField : PartReads TextField where
  bounds h := ⟨Nat.le_of_lt h.1, h.2.2.1⟩
  agree h hagree := by
    obtain ⟨hlt, hmost, hle, hzero, hbefore⟩ := h
    have hwithin := hagree.within
    refine ⟨hlt, hmost, by omega, ?_, fun k hk hkj => ?_⟩
    · rw [hagree.same _ (by omega), hzero]
    · rw [hagree.same _ (by omega)]
      exact hbefore k hk hkj

theorem partReads_headerChecksum : PartReads HeaderChecksum where
  bounds h := by
    obtain ⟨rfl, hle, -⟩ := h
    exact ⟨by omega, hle⟩
  agree h hagree := by
    obtain ⟨rfl, hle, hsame⟩ := h
    have hwithin := hagree.within
    refine ⟨rfl, by omega, ?_⟩
    rw [littleEndianAt_of_agree hagree (by omega), hsame,
      extract_eq_of_agree 0 (hagree.mono (by omega)) (by omega)]

theorem Part.bounds {bit : Nat} {part : ByteArray → Nat → Nat → Prop} (hpart : PartReads part)
    (h : Part data bit part i j) (hi : i ≤ data.size) : i ≤ j ∧ j ≤ data.size := by
  unfold Part at h
  split_ifs at h
  · exact hpart.bounds h
  · exact ⟨Nat.le_of_eq h.symm, h ▸ hi⟩

theorem Part.of_agree {bit : Nat} {part : ByteArray → Nat → Nat → Prop} (hpart : PartReads part)
    (h : Part data bit part i j) (hagree : Agree data other (8 * j))
    (hflags : byteAt other 3 = byteAt data 3) : Part other bit part i j := by
  unfold Part at h ⊢
  rw [hflags]
  split_ifs at h ⊢
  · exact hpart.agree h hagree
  · exact h

theorem Header.bounds {afterExtra afterName afterComment : Nat}
    (h : Header data afterExtra afterName afterComment start) :
    headerSize ≤ afterExtra ∧ afterExtra ≤ afterName ∧ afterName ≤ afterComment ∧
      afterComment ≤ start ∧ start ≤ data.size := by
  obtain ⟨hextra, hle⟩ := h.extra.bounds partReads_extraField h.fixed
  obtain ⟨hname, hle⟩ := h.name.bounds partReads_textField hle
  obtain ⟨hcomment, hle⟩ := h.comment.bounds partReads_textField hle
  obtain ⟨hchecksum, hle⟩ := h.checksum.bounds partReads_headerChecksum hle
  exact ⟨hextra, hname, hcomment, hchecksum, hle⟩

theorem HasHeader.le_size (h : HasHeader data start) : start ≤ data.size := by
  obtain ⟨_, _, _, h⟩ := h
  exact h.bounds.2.2.2.2

theorem HasHeader.of_agree (h : HasHeader data start) (hagree : Agree data other (8 * start)) :
    HasHeader other start := by
  obtain ⟨afterExtra, afterName, afterComment, h⟩ := h
  obtain ⟨hextra, hname, hcomment, hchecksum, -⟩ := h.bounds
  have hwithin := hagree.within
  rw [headerSize] at hextra
  have hsame : ∀ k < 4, byteAt other k = byteAt data k := fun k hk => hagree.same k (by omega)
  have hflags := hsame 3 (by decide)
  refine ⟨afterExtra, afterName, afterComment, by rw [headerSize]; omega, ?_, ?_, ?_,
    h.extra.of_agree partReads_extraField (hagree.mono (by omega)) hflags,
    h.name.of_agree partReads_textField (hagree.mono (by omega)) hflags,
    h.comment.of_agree partReads_textField (hagree.mono (by omega)) hflags,
    h.checksum.of_agree partReads_headerChecksum hagree hflags⟩
  · rw [hsame 0 (by decide), hsame 1 (by decide)]
    exact h.identified
  · rw [hsame 2 (by decide)]
    exact h.deflated
  · rw [hflags]
    exact h.noOtherFlag

end SealedText.Gzip
