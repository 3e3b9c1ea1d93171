import SealedText.Proofs.InflateReads

/-!
# Inflating to the end or to a limit

A state is inflated piece by piece (`Inflating`), without a limit. A run with a limit stops at the
first state of that way that is done or has enough output (`run_of_inflating`), and it always gets
there: every piece but the last takes a bit (`step_ok`), so there are never more pieces than bits.
Output is only ever added to, and what was put out by some position does not depend on what stands
behind that (`Inflating.of_agree`).
-/

namespace SealedText.Gzip

variable {data other : ByteArray} {s t u : InflateState} {limit fuel : Nat}

/-! ## One piece -/

/-- How many stored bytes are read at once: all that are there. -/
def storedCount (data : ByteArray) (s : InflateState) (left : Nat) : Nat :=
  min left (data.size - s.pos / 8)

theorem step_stored {left : Nat} (hmode : s.mode = .stored left) : step data s =
    if storedCount data s left = 0 then .error .incomplete
    else .ok { s with
      pos := s.pos + 8 * storedCount data s left
      out := s.out ++ data.extract (s.pos / 8) (s.pos / 8 + storedCount data s left)
      mode := if storedCount data s left = left then modeAfterBlock s.last
        else .stored (left - storedCount data s left) } := by
  unfold step
  simp only [hmode]
  rfl

/-- Every piece but the last takes a bit, stays inside the data and adds to the output. -/
theorem step_ok (hsound : s.Sound) (hopen : s.mode ≠ .finished) (h : step data s = .ok t) :
    s.pos < t.pos ∧ t.pos ≤ 8 * data.size ∧ t.Sound ∧ s.out.size ≤ t.out.size := by
  cases hmode : s.mode with
  | header =>
    simp only [step, hmode] at h
    obtain ⟨hlt, hreads, ht, hout⟩ := readHeader_determines h
    exact ⟨hlt, hreads.within, ht, Nat.le_of_eq (by rw [hout])⟩
  | stored left =>
    have haligned : s.pos % 8 = 0 := by simpa only [InflateState.Sound, hmode] using hsound
    rw [step_stored hmode] at h
    split_ifs at h with hnone hall
    all_goals
      cases h
      rw [storedCount] at hnone
      refine ⟨?_, ?_, ?_, ?_⟩
      · simp only [storedCount]
        omega
      · simp only [storedCount]
        omega
    · exact sound_afterBlock ..
    · rw [ByteArray.size_append]
      exact Nat.le_add_right ..
    · exact (by omega : (s.pos + 8 * storedCount data s left) % 8 = 0)
    · rw [ByteArray.size_append]
      exact Nat.le_add_right ..
  | coded symbols distances =>
    simp only [InflateState.Sound, hmode] at hsound
    simp only [step, hmode] at h
    obtain ⟨hlt, hreads, ht, hout⟩ := readCoded_determines hsound.1 hsound.2 hmode h
    exact ⟨hlt, hreads.within, ht, hout⟩
  | finished => exact absurd hmode hopen

theorem step_stored_of_agree {left : Nat} (hmode : s.mode = .stored left)
    (haligned : s.pos % 8 = 0) (h : step data s = .ok t) (hagree : Agree data other t.pos) :
    ∃ u, step other s = .ok u ∧ t.out.size ≤ u.out.size ∧ (u = t ∨ ∀ v, step data t ≠ .ok v) := by
  rw [step_stored hmode] at h
  have hcount : storedCount data s left = min left (data.size - s.pos / 8) := rfl
  have hcount₁ : storedCount other s left = min left (other.size - s.pos / 8) := rfl
  by_cases hnone : storedCount data s left = 0
  · rw [if_pos hnone] at h
    cases h
  rw [if_neg hnone] at h
  cases h
  have hwithin : s.pos + 8 * storedCount data s left ≤ 8 * other.size := hagree.within
  refine ⟨_, by rw [step_stored hmode, if_neg (by omega)], ?_, ?_⟩
  · simp only [ByteArray.size_append, ByteArray.size_extract]
    omega
  by_cases hall : storedCount data s left = left
  · left
    have hsame : storedCount other s left = storedCount data s left := by omega
    have hbytes := extract_eq_of_agree (s.pos / 8)
      (hagree.mono (by simp only []; omega : 8 * (s.pos / 8 + storedCount data s left) ≤ _))
      (by omega)
    rw [hsame, hbytes]
  · right
    have hend : storedCount data ⟨s.pos + 8 * storedCount data s left,
        s.out ++ data.extract (s.pos / 8) (s.pos / 8 + storedCount data s left),
        .stored (left - storedCount data s left), s.last⟩ (left - storedCount data s left) = 0 := by
      simp only [storedCount]
      omega
    simp only [if_neg hall]
    rw [step_stored rfl, if_pos hend]
    intro v hv
    cases hv

/-- On other data with the same bits up to where a piece ends, the piece is the same, unless it is a
run of stored bytes that was cut off by the end of the data. -/
theorem step_of_agree (hsound : s.Sound) (h : step data s = .ok t)
    (hagree : Agree data other t.pos) :
    ∃ u, step other s = .ok u ∧ t.out.size ≤ u.out.size ∧ (u = t ∨ ∀ v, step data t ≠ .ok v) := by
  cases hmode : s.mode with
  | header =>
    simp only [step, hmode] at h
    obtain ⟨-, hreads, -, -⟩ := readHeader_determines h
    exact ⟨t, by simpa only [step, hmode] using hreads.reads hagree, Nat.le_refl _, .inl rfl⟩
  | stored left =>
    have haligned : s.pos % 8 = 0 := by simpa only [InflateState.Sound, hmode] using hsound
    exact step_stored_of_agree hmode haligned h hagree
  | coded symbols distances =>
    simp only [InflateState.Sound, hmode] at hsound
    simp only [step, hmode] at h
    obtain ⟨-, hreads, -, -⟩ := readCoded_determines hsound.1 hsound.2 hmode h
    exact ⟨t, by simpa only [step, hmode] using hreads.reads hagree, Nat.le_refl _, .inl rfl⟩
  | finished =>
    simp only [step, hmode] at h
    cases h
    exact ⟨s, by simp only [step, hmode], Nat.le_refl _, .inl rfl⟩

/-! ## Many pieces -/

/-- Some pieces lead from one state to another. -/
inductive Inflating (data : ByteArray) : InflateState → InflateState → Prop
  | refl (s : InflateState) : Inflating data s s
  | piece {s m t : InflateState} (h : step data s = .ok m) (hrest : Inflating data m t) :
      Inflating data s t

/-- The state in front of the first block, which starts at a byte. -/
def InflateState.atByte (start : Nat) : InflateState := ⟨8 * start, .empty, .header, false⟩

/-- A state that the pieces in front of it may have led to. -/
def InflateState.Within (data : ByteArray) (s : InflateState) : Prop :=
  s.Sound ∧ s.pos ≤ 8 * data.size

theorem within_atByte {start : Nat} (h : start ≤ data.size) :
    (InflateState.atByte start).Within data :=
  ⟨trivial, Nat.mul_le_mul_left 8 h⟩

theorem InflateState.Within.exists_fuel (hs : s.Within data)
    (hfuel : 8 * data.size < s.pos + fuel) : ∃ more, fuel = more + 1 := by
  have hpos := hs.2
  exact ⟨fuel - 1, by omega⟩

theorem eq_of_step_finished (hdone : s.mode = .finished) (h : step data s = .ok t) : t = s := by
  simp only [step, hdone] at h
  cases h
  rfl

theorem step_within (hs : s.Within data) (h : step data s = .ok t) :
    t.Within data ∧ s.pos ≤ t.pos ∧ s.out.size ≤ t.out.size := by
  by_cases hdone : s.mode = .finished
  · cases eq_of_step_finished hdone h
    exact ⟨hs, Nat.le_refl _, Nat.le_refl _⟩
  · obtain ⟨hlt, hwithin, hsound, hout⟩ := step_ok hs.1 hdone h
    exact ⟨⟨hsound, hwithin⟩, Nat.le_of_lt hlt, hout⟩

namespace Inflating

theorem trans (h : Inflating data s t) (hmore : Inflating data t u) : Inflating data s u := by
  induction h with
  | refl s => exact hmore
  | piece hstep hrest ih => exact .piece hstep (ih hmore)

theorem within (h : Inflating data s t) (hs : s.Within data) :
    t.Within data ∧ s.pos ≤ t.pos ∧ s.out.size ≤ t.out.size := by
  induction h with
  | refl s => exact ⟨hs, Nat.le_refl _, Nat.le_refl _⟩
  | piece hstep hrest ih =>
    obtain ⟨hm, hpos, hout⟩ := step_within hs hstep
    obtain ⟨ht, hpos₁, hout₁⟩ := ih hm
    exact ⟨ht, Nat.le_trans hpos hpos₁, Nat.le_trans hout hout₁⟩

theorem eq_of_stuck (h : Inflating data s t) (hstuck : ∀ m, step data s ≠ .ok m) : t = s := by
  cases h with
  | refl s => rfl
  | piece hstep hrest => exact absurd hstep (hstuck _)

/-- Other data with the same bits in front of the position that was reached yields no less. -/
theorem of_agree (h : Inflating data s t) (hs : s.Within data) (hagree : Agree data other t.pos) :
    ∃ u, Inflating other s u ∧ t.out.size ≤ u.out.size := by
  induction h with
  | refl s => exact ⟨s, .refl s, Nat.le_refl _⟩
  | @piece s m t hstep hrest ih =>
    obtain ⟨hm, -, -⟩ := step_within hs hstep
    obtain ⟨-, hpos, -⟩ := hrest.within hm
    obtain ⟨u, hu, hout, rfl | hstuck⟩ := step_of_agree hs.1 hstep (hagree.mono hpos)
    · obtain ⟨v, hv, hsize⟩ := ih hm hagree
      exact ⟨v, .piece hu hv, hsize⟩
    · cases hrest.eq_of_stuck hstuck
      exact ⟨u, .piece hu (.refl u), hout⟩

end Inflating

/-! ## Runs -/

theorem run_of_reached (hreached : limit ≤ s.out.size) : run data limit (fuel + 1) s = .ok s := by
  rw [run, if_pos hreached]

theorem run_of_finished (hdone : s.mode = .finished) : run data limit (fuel + 1) s = .ok s := by
  unfold run
  split_ifs
  · rfl
  · simp only [hdone]

theorem run_of_step (hreached : ¬ limit ≤ s.out.size) (hdone : s.mode ≠ .finished)
    (h : step data s = .ok t) : run data limit (fuel + 1) s = run data limit fuel t := by
  rw [run, if_neg hreached]
  split
  · exact absurd ‹_› hdone
  · rw [h]

/-- What a run returns is on the way. With as many steps as there are bits left, it is done or has
enough output. -/
theorem inflating_of_run : ∀ {fuel : Nat} {s t : InflateState}, run data limit fuel s = .ok t →
    s.Within data → 8 * data.size < s.pos + fuel →
      Inflating data s t ∧ (t.mode = .finished ∨ limit ≤ t.out.size)
  | 0, s, t, _, hs, hfuel => absurd hs.2 (by omega)
  | fuel + 1, s, t, h, hs, hfuel => by
    by_cases hreached : limit ≤ s.out.size
    · rw [run_of_reached hreached] at h
      cases h
      exact ⟨.refl s, .inr hreached⟩
    by_cases hdone : s.mode = .finished
    · rw [run_of_finished hdone] at h
      cases h
      exact ⟨.refl s, .inl hdone⟩
    cases hstep : step data s with
    | error fault =>
      rw [run, if_neg hreached] at h
      split at h
      · exact absurd ‹_› hdone
      · rw [hstep] at h
        cases h
    | ok m =>
      rw [run_of_step hreached hdone hstep] at h
      obtain ⟨hlt, hwithin, hsound, -⟩ := step_ok hs.1 hdone hstep
      obtain ⟨hrest, hend⟩ := inflating_of_run h ⟨hsound, hwithin⟩ (by omega)
      exact ⟨.piece hstep hrest, hend⟩

/-- A run stops on the way to any state that is done or has enough output, and not before there is
enough. -/
theorem run_of_inflating (h : Inflating data s u) (hend : u.mode = .finished ∨ limit ≤ u.out.size) :
    ∀ {fuel : Nat}, s.Within data → 8 * data.size < s.pos + fuel →
      ∃ t, run data limit fuel s = .ok t ∧
        (t = u ∨ limit ≤ t.out.size ∧ t.out.size ≤ u.out.size) := by
  induction h with
  | refl s =>
    intro fuel hs hfuel
    obtain ⟨fuel, rfl⟩ := hs.exists_fuel hfuel
    rcases hend with hdone | hreached
    · exact ⟨s, run_of_finished hdone, .inl rfl⟩
    · exact ⟨s, run_of_reached hreached, .inl rfl⟩
  | @piece s m u hstep hrest ih =>
    intro fuel hs hfuel
    obtain ⟨fuel, rfl⟩ := hs.exists_fuel hfuel
    by_cases hreached : limit ≤ s.out.size
    · obtain ⟨-, -, hout⟩ := (Inflating.piece hstep hrest).within hs
      exact ⟨s, run_of_reached hreached, .inr ⟨hreached, hout⟩⟩
    by_cases hdone : s.mode = .finished
    · cases eq_of_step_finished hdone hstep
      exact ih hend hs hfuel
    · obtain ⟨hlt, hwithin, hsound, -⟩ := step_ok hs.1 hdone hstep
      rw [run_of_step hreached hdone hstep]
      exact ih hend ⟨hsound, hwithin⟩ (by omega)

end SealedText.Gzip
