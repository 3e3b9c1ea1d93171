import SealedText.Proofs.InflateRuns
import SealedText.Proofs.MemberHeader

/-!
# The limit takes nothing from the checks

A reader with a limit accepts exactly the members within it whose trailer is there and matches
(`decompress_ok_iff`), and gives up exactly those that yield more, before it looks at anything
behind the bytes that went beyond the limit (`decompress_tooLong_iff`, `YieldsMore.of_agree`).
-/

namespace SealedText.Gzip

variable {data other out : ByteArray} {start limit : Nat} {t u : InflateState}

theorem inflate_ok (hstart : start ≤ data.size) (h : inflate data start limit = .ok t) :
    Inflating data (.atByte start) t ∧ (t.mode = .finished ∨ limit ≤ t.out.size) :=
  inflating_of_run h (within_atByte hstart) (by simp only [InflateState.atByte]; omega)

theorem inflate_of_inflating (hstart : start ≤ data.size) (h : Inflating data (.atByte start) u)
    (hend : u.mode = .finished ∨ limit ≤ u.out.size) : ∃ t, inflate data start limit = .ok t ∧
      (t = u ∨ limit ≤ t.out.size ∧ t.out.size ≤ u.out.size) :=
  run_of_inflating h hend (within_atByte hstart) (by simp only [InflateState.atByte]; omega)

/-- The checksum and the length of what was inflated stand at a byte. -/
structure Trailer (data : ByteArray) (i : Nat) (out : ByteArray) : Prop where
  within : i + trailerSize ≤ data.size
  checksum : littleEndianAt data i 4 = (crc32 out).toNat
  length : littleEndianAt data (i + 4) 4 = out.size % 0x100000000

/-- The data starts with a member of exactly `out`: a header, deflated data that inflates to it, and
its trailer at the next byte. -/
def Holds (data out : ByteArray) : Prop :=
  ∃ start s, HasHeader data start ∧ Inflating data (.atByte start) s ∧ s.mode = .finished ∧
    s.out = out ∧ Trailer data ((s.pos + 7) / 8) out

/-- The data starts with a header, and what follows yields more than so many bytes, whether or not
it is in order behind them. -/
def YieldsMore (data : ByteArray) (limit : Nat) : Prop :=
  ∃ start s, HasHeader data start ∧ Inflating data (.atByte start) s ∧ limit < s.out.size

theorem decompress_ok_iff :
    decompress limit data = .ok out ↔ Holds data out ∧ out.size ≤ limit := by
  constructor
  · intro h
    unfold decompress at h
    obtain ⟨start, hstart, h⟩ := bind_eq_ok.1 h
    have hheader := memberStart_ok_iff.1 hstart
    split at h
    · cases h
    · rename_i s hs
      obtain ⟨hsize, h⟩ := check_bind_eq_ok.1 h
      obtain ⟨hthere, h⟩ := check_bind_eq_ok.1 h
      obtain ⟨hsame, h⟩ := check_bind_eq_ok.1 h
      cases h
      simp only [Bool.or_eq_true, decide_eq_true_eq, not_or, Decidable.not_not] at hsame
      obtain ⟨hinflating, hend⟩ := inflate_ok hheader.le_size hs
      have hdone : s.mode = .finished := hend.resolve_right (by omega)
      exact ⟨⟨start, s, hheader, hinflating, hdone, rfl, by omega, hsame.1, hsame.2⟩, by omega⟩
  · rintro ⟨⟨start, s, hheader, hinflating, hdone, rfl, htrailer⟩, hsize⟩
    obtain ⟨t, ht, rfl | hlong⟩ : ∃ t, inflate data start (limit + 1) = .ok t ∧ _ :=
      inflate_of_inflating hheader.le_size hinflating (.inl hdone)
    · unfold decompress
      rw [memberStart_ok_iff.2 hheader, ok_bind]
      have hwithin := htrailer.within
      simp only [ht]
      rw [if_neg (by omega), if_neg (by omega),
        if_neg (by simp [htrailer.checksum, htrailer.length])]
      rfl
    · omega

theorem decompress_tooLong_iff :
    decompress limit data = .error .tooLong ↔ YieldsMore data limit := by
  constructor
  · intro h
    unfold decompress at h
    rcases bind_eq_error.1 h with hstart | ⟨start, hstart, h⟩
    · exact absurd hstart (memberStart_ne_tooLong data)
    have hheader := memberStart_ok_iff.1 hstart
    split at h
    · cases h
    · rename_i s hs
      by_cases hlong : s.out.size > limit
      · exact ⟨start, s, hheader, (inflate_ok hheader.le_size hs).1, hlong⟩
      · rw [if_neg hlong] at h
        simp only [] at h
        split_ifs at h <;> cases h
  · rintro ⟨start, s, hheader, hinflating, hlong⟩
    obtain ⟨t, ht, hreached⟩ : ∃ t, inflate data start (limit + 1) = .ok t ∧ _ :=
      inflate_of_inflating hheader.le_size hinflating (.inr hlong)
    have hsize : t.out.size > limit := by
      rcases hreached with rfl | ⟨hreached, -⟩
      · exact hlong
      · exact hreached
    unfold decompress
    rw [memberStart_ok_iff.2 hheader, ok_bind]
    simp only [ht, if_pos hsize]
    rfl

/-- Other data with the same bits up to where the limit was passed passes it, too. -/
theorem yieldsMore_of_agree (hheader : HasHeader data start)
    (hinflating : Inflating data (.atByte start) t) (hlong : limit < t.out.size)
    (hagree : Agree data other t.pos) : YieldsMore other limit := by
  have hwithin := within_atByte hheader.le_size
  obtain ⟨-, hpos, -⟩ := hinflating.within hwithin
  obtain ⟨u, hu, hsize⟩ := hinflating.of_agree hwithin hagree
  exact ⟨start, u, hheader.of_agree (hagree.mono hpos), hu, Nat.lt_of_lt_of_le hlong hsize⟩

end SealedText.Gzip
