import Mathlib.Algebra.Group.Nat.Defs
import Mathlib.Tactic.SplitIfs
import SealedText.Gzip.Inflate
import SealedText.Proofs.Outcomes

/-!
# What inflating looks at

Every reader of compressed data moves forward and does not look past the position it returns
(`Determines`): on any other data with the same bits in front of that position it reads the same.
A symbol takes a bit at least, since the tree of a code is never a lone symbol
(`needsBit_ofLengths`).
-/

namespace SealedText.Gzip

/-- The other data has all bits in front of a position, and they stand in the same bytes. -/
structure Agree (data other : ByteArray) (pos : Nat) : Prop where
  within : pos ≤ 8 * other.size
  same : ∀ i, 8 * i < pos → byteAt other i = byteAt data i

/-- The bits in front of a position are there and decide what is read. -/
structure Determines {α : Type} (data : ByteArray) (pos : Nat)
    (read : ByteArray → Except DeflateFault α) (a : α) : Prop where
  within : pos ≤ 8 * data.size
  reads : ∀ {other : ByteArray}, Agree data other pos → read other = .ok a

variable {data other : ByteArray} {pos after : Nat}

theorem Agree.mono {less : Nat} (h : Agree data other pos) (hle : less ≤ pos) :
    Agree data other less :=
  ⟨Nat.le_trans hle h.within, fun i hi => h.same i (Nat.lt_of_lt_of_le hi hle)⟩

theorem extract_eq_of_agree (start : Nat) {stop : Nat} (h : Agree data other (8 * stop))
    (hdata : stop ≤ data.size) : other.extract start stop = data.extract start stop := by
  have hother : stop ≤ other.size := by
    have hwithin := h.within
    omega
  have hsize : (other.extract start stop).size = (data.extract start stop).size := by
    rw [ByteArray.size_extract, ByteArray.size_extract, Nat.min_eq_left hother,
      Nat.min_eq_left hdata]
  refine ByteArray.ext_getElem hsize fun i hi hi' => ?_
  rw [ByteArray.size_extract] at hi'
  have hsame := h.same (start + i) (by omega)
  rw [byteAt, byteAt, dif_pos (by omega), dif_pos (by omega)] at hsame
  rw [ByteArray.getElem_extract, ByteArray.getElem_extract]
  exact UInt8.toNat_inj.1 hsame

theorem Determines.bind {α β : Type} {f : ByteArray → Except DeflateFault α}
    {g : ByteArray → α → Except DeflateFault β} {a : α} {b : β} (hf : Determines data pos f a)
    (hg : Determines data after (g · a) b) (hle : pos ≤ after) :
    Determines data after (fun d => f d >>= g d) b := by
  refine ⟨hg.within, fun hagree => ?_⟩
  rw [hf.reads (hagree.mono hle), ok_bind]
  exact hg.reads hagree

/-! ## Bits -/

theorem mod_two_pow_of_le {m k a b : Nat} (hle : m ≤ k) (h : a % 2 ^ k = b % 2 ^ k) :
    a % 2 ^ m = b % 2 ^ m := by
  rw [← Nat.mod_mod_of_dvd a (Nat.pow_dvd_pow 2 hle), h,
    Nat.mod_mod_of_dvd b (Nat.pow_dvd_pow 2 hle)]

/-- The three bytes that hold up to 16 bits at a position. -/
def windowAt (data : ByteArray) (i : Nat) : Nat :=
  byteAt data i + byteAt data (i + 1) * 256 + byteAt data (i + 2) * 65536

theorem windowAt_mod_of_agree (h : Agree data other pos) {i m : Nat} (hm : 8 * i + m ≤ pos)
    (hle : m ≤ 24) : windowAt other i % 2 ^ m = windowAt data i % 2 ^ m := by
  have hsame := h.same
  unfold windowAt
  rcases (by omega : m = 0 ∨ 0 < m ∧ m ≤ 8 ∨ 8 < m ∧ m ≤ 16 ∨ 16 < m) with
    rfl | ⟨hlow, hhigh⟩ | ⟨hlow, hhigh⟩ | hlow
  · rw [Nat.pow_zero, Nat.mod_one, Nat.mod_one]
  · have hfirst := hsame i (by omega)
    exact mod_two_pow_of_le hhigh (by omega)
  · have hfirst := hsame i (by omega)
    have hsecond := hsame (i + 1) (by omega)
    exact mod_two_pow_of_le hhigh (by omega)
  · have hfirst := hsame i (by omega)
    have hsecond := hsame (i + 1) (by omega)
    have hthird := hsame (i + 2) (by omega)
    rw [hfirst, hsecond, hthird]

theorem readBits_eq_ok {count n : Nat} : readBits data pos count = .ok n ↔
    pos + count ≤ 8 * data.size ∧ windowAt data (pos / 8) / 2 ^ (pos % 8) % 2 ^ count = n := by
  unfold readBits
  split_ifs with hpast
  · constructor
    · intro h
      cases h
    · rintro ⟨hle, -⟩
      omega
  · simp only [Except.ok.injEq, Nat.shiftRight_eq_div_pow, Nat.one_shiftLeft]
    exact ⟨fun h => ⟨by omega, h⟩, fun h => h.2⟩

theorem readBits_determines {count n : Nat} (h : readBits data pos count = .ok n)
    (hcount : count ≤ 16) : Determines data (pos + count) (readBits · pos count) n := by
  obtain ⟨hwithin, rfl⟩ := readBits_eq_ok.1 h
  refine ⟨hwithin, fun hagree => readBits_eq_ok.2 ⟨hagree.within, ?_⟩⟩
  rw [← Nat.mod_mul_right_div_self, ← Nat.mod_mul_right_div_self, ← Nat.pow_add,
    windowAt_mod_of_agree hagree (by omega) (by omega)]

/-! ## Codes -/

namespace CodeTree

/-- A symbol of the tree takes a bit at least. -/
def NeedsBit (t : CodeTree) : Prop := ∀ n, t ≠ .symbol n

theorem needsBit_insert {length : Nat} (t : CodeTree) (value sym : Nat) (h : length ≠ 0) :
    (t.insert value sym length).NeedsBit := by
  obtain ⟨length, rfl⟩ := Nat.exists_eq_succ_of_ne_zero h
  intro n
  simp only [insert]
  split_ifs <;> simp

theorem needsBit_foldl_insert : ∀ {words : List ((Nat × Nat) × Nat)} {t : CodeTree}, t.NeedsBit →
    (words.foldl (fun t w => if w.1.1 = 0 then t else t.insert w.1.2 w.2 w.1.1) t).NeedsBit
  | [], _, h => h
  | w :: words, t, h => by
    rw [List.foldl_cons]
    split_ifs with hlength
    · exact needsBit_foldl_insert h
    · exact needsBit_foldl_insert (needsBit_insert t w.1.2 w.2 hlength)

theorem needsBit_ofLengths (lengths : List Nat) : (ofLengths lengths).NeedsBit :=
  needsBit_foldl_insert fun n h => by cases h

end CodeTree

theorem walk_determines : ∀ {t : CodeTree} {pos n after : Nat}, walk data t pos = .ok (n, after) →
    pos ≤ 8 * data.size → pos ≤ after ∧ Determines data after (walk · t pos) (n, after)
  | .none, _, _, _, h, _ => by cases h
  | .symbol _, _, _, _, h, hpos => by
    cases h
    exact ⟨Nat.le_refl _, hpos, fun _ => rfl⟩
  | .branch zero one, pos, n, after, h, _ => by
    have hbranch : ∀ {other : ByteArray}, Agree data other after → pos + 1 ≤ after →
        walk other (.branch zero one) pos =
          if (byteAt data (pos / 8)).testBit (pos % 8) then walk other one (pos + 1)
          else walk other zero (pos + 1) := by
      intro other hagree hle
      rw [walk, if_pos (Nat.lt_of_lt_of_le hle hagree.within), hagree.same _ (by omega)]
    rw [walk] at h
    split_ifs at h with hbit hone
    · obtain ⟨hle, hreads⟩ := walk_determines h (by omega)
      refine ⟨by omega, hreads.within, fun hagree => ?_⟩
      rw [hbranch hagree hle, if_pos hone, hreads.reads hagree]
    · obtain ⟨hle, hreads⟩ := walk_determines h (by omega)
      refine ⟨by omega, hreads.within, fun hagree => ?_⟩
      rw [hbranch hagree hle, if_neg hone, hreads.reads hagree]

theorem lt_of_walk {t : CodeTree} {n : Nat} (ht : t.NeedsBit)
    (h : walk data t pos = .ok (n, after)) : pos < after := by
  cases t with
  | none => cases h
  | symbol m => exact absurd rfl (ht m)
  | branch zero one =>
    rw [walk] at h
    split_ifs at h with hbit hone
    · exact (walk_determines h (by omega)).1
    · exact (walk_determines h (by omega)).1

theorem readSymbol_determines {t : CodeTree} {n : Nat} (ht : t.NeedsBit)
    (h : readSymbol data t pos = .ok (n, after)) :
    pos < after ∧ Determines data after (readSymbol · t pos) (n, after) := by
  rw [readSymbol] at h
  split_ifs at h with hbit
  have hlt := lt_of_walk ht h
  obtain ⟨-, hreads⟩ := walk_determines h (by omega)
  refine ⟨hlt, hreads.within, fun {other} hagree => ?_⟩
  rw [readSymbol, if_pos (Nat.lt_of_lt_of_le hlt hagree.within)]
  exact hreads.reads hagree

/-! ## Block headers -/

theorem readTriples_determines : ∀ {count pos : Nat} {ns : List Nat} {after : Nat},
    readTriples data pos count = .ok (ns, after) → pos ≤ 8 * data.size →
      pos ≤ after ∧ Determines data after (readTriples · pos count) (ns, after)
  | 0, _, _, _, h, hpos => by
    cases h
    exact ⟨Nat.le_refl _, hpos, fun _ => rfl⟩
  | count + 1, pos, ns, after, h, _ => by
    rw [readTriples] at h
    obtain ⟨n, hn, h⟩ := bind_eq_ok.1 h
    obtain ⟨⟨rest, after⟩, hrest, h⟩ := bind_eq_ok.1 h
    cases h
    have hbits := readBits_determines hn (by decide)
    obtain ⟨hle, hmore⟩ := readTriples_determines hrest hbits.within
    refine ⟨by omega, hmore.within, fun hagree => ?_⟩
    rw [readTriples, hbits.reads (hagree.mono hle), ok_bind, hmore.reads hagree]
    rfl

theorem readLengths_determines {t : CodeTree} (ht : t.NeedsBit) {total : Nat} :
    ∀ {fuel pos : Nat} {lengths found : Array Nat} {after : Nat},
      readLengths data t total fuel pos lengths = .ok (found, after) → pos ≤ 8 * data.size →
        pos ≤ after ∧ Determines data after (readLengths · t total fuel pos lengths) (found, after)
  | 0, _, _, _, _, h, _ => by cases h
  | fuel + 1, pos, lengths, found, after, h, hpos => by
    simp only [readLengths] at h ⊢
    by_cases hall : lengths.size = total
    · simp only [if_pos hall] at h ⊢
      cases h
      exact ⟨Nat.le_refl _, hpos, fun _ => rfl⟩
    by_cases hmore : lengths.size > total
    · simp only [if_neg hall, if_pos hmore] at h
      cases h
    simp only [if_neg hall, if_neg hmore] at h ⊢
    obtain ⟨⟨sym, next⟩, hsym, h⟩ := bind_eq_ok.1 h
    obtain ⟨hlt, hread⟩ := readSymbol_determines ht hsym
    have hrepeat : ∀ {width : Nat} {more : Nat → Array Nat}, width ≤ 16 →
        (readBits data next width >>= fun n =>
          readLengths data t total fuel (next + width) (more n)) = .ok (found, after) →
        next ≤ after ∧ Determines data after (fun d => readBits d next width >>= fun n =>
          readLengths d t total fuel (next + width) (more n)) (found, after) := by
      intro width more hwidth h
      obtain ⟨n, hn, h⟩ := bind_eq_ok.1 h
      have hbits := readBits_determines hn hwidth
      obtain ⟨hle, hrest⟩ := readLengths_determines ht h hbits.within
      exact ⟨by omega, hbits.bind hrest hle⟩
    suffices hrest : next ≤ after ∧ Determines data after _ (found, after) from
      ⟨by omega, hread.bind hrest.2 hrest.1⟩
    simp only [] at h ⊢
    split_ifs at h ⊢ with hsingle hlast hnone hzeros
    · exact readLengths_determines ht h hread.within
    · cases h
    · exact hrepeat (by decide) h
    · exact hrepeat (by decide) h
    · exact hrepeat (by decide) h

theorem readCodes_determines {symbols distances : CodeTree}
    (h : readCodes data pos = .ok (symbols, distances, after)) :
    pos < after ∧ Determines data after (readCodes · pos) (symbols, distances, after) ∧
      symbols.NeedsBit ∧ distances.NeedsBit := by
  unfold readCodes at h ⊢
  obtain ⟨a, ha, h⟩ := bind_eq_ok.1 h
  obtain ⟨b, hb, h⟩ := bind_eq_ok.1 h
  obtain ⟨c, hc, h⟩ := bind_eq_ok.1 h
  obtain ⟨hcounts, h⟩ := check_bind_eq_ok.1 h
  obtain ⟨⟨triples, next⟩, htriples, h⟩ := bind_eq_ok.1 h
  obtain ⟨hcomplete, h⟩ := check_bind_eq_ok.1 h
  obtain ⟨⟨lengths, last⟩, hlengths, h⟩ := bind_eq_ok.1 h
  obtain ⟨husable, h⟩ := check_bind_eq_ok.1 h
  cases h
  have hfirst := readBits_determines ha (by decide)
  have hsecond := readBits_determines hb (by decide)
  have hthird := readBits_determines hc (by decide)
  obtain ⟨hle, hfourth⟩ := readTriples_determines htriples hthird.within
  obtain ⟨hle₁, hfifth⟩ :=
    readLengths_determines (CodeTree.needsBit_ofLengths _) hlengths hfourth.within
  refine ⟨by omega, ?_, CodeTree.needsBit_ofLengths _, CodeTree.needsBit_ofLengths _⟩
  refine hfirst.bind (hsecond.bind (hthird.bind ?_ (by omega)) (by omega)) (by omega)
  simp only [if_neg hcounts]
  refine hfourth.bind ?_ hle₁
  simp only [if_neg hcomplete]
  refine hfifth.bind ?_ (Nat.le_refl _)
  simp only [if_neg husable]
  exact ⟨hfifth.within, fun _ => rfl⟩

/-! ## Pieces -/

/-- Stored bytes stand on byte boundaries, and every symbol of a code takes a bit. -/
def InflateState.Sound (s : InflateState) : Prop :=
  match s.mode with
  | .stored _ => s.pos % 8 = 0
  | .coded symbols distances => symbols.NeedsBit ∧ distances.NeedsBit
  | _ => True

variable {s t : InflateState}

theorem sound_afterBlock (pos : Nat) (out : ByteArray) (last current : Bool) :
    InflateState.Sound ⟨pos, out, modeAfterBlock last, current⟩ := by
  cases last <;> trivial

theorem readHeader_determines (h : readHeader data s = .ok t) :
    s.pos < t.pos ∧ Determines data t.pos (readHeader · s) t ∧ t.Sound ∧ t.out = s.out := by
  unfold readHeader at h ⊢
  obtain ⟨final, hfinal, h⟩ := bind_eq_ok.1 h
  obtain ⟨kind, hkind, h⟩ := bind_eq_ok.1 h
  have hfirst := readBits_determines hfinal (by decide)
  have hsecond := readBits_determines hkind (by decide)
  simp only [] at h
  split_ifs at h with hstored hfixed hown
  · obtain ⟨length, hlength, h⟩ := bind_eq_ok.1 h
    obtain ⟨complement, hcomplement, h⟩ := bind_eq_ok.1 h
    obtain ⟨hsum, h⟩ := check_bind_eq_ok.1 h
    cases h
    have hthird := readBits_determines hlength (by decide)
    have hfourth := readBits_determines hcomplement (by decide)
    have hsound : InflateState.Sound ⟨(s.pos + 3 + 7) / 8 * 8 + 32, s.out,
        if length = 0 then modeAfterBlock (final == 1) else .stored length, final == 1⟩ := by
      split_ifs with hlength₀
      · exact sound_afterBlock ..
      · exact (by omega : ((s.pos + 3 + 7) / 8 * 8 + 32) % 8 = 0)
    refine ⟨by simp only []; omega, ?_, hsound, rfl⟩
    refine hfirst.bind (hsecond.bind ?_ (by simp only []; omega)) (by simp only []; omega)
    simp only [if_pos hstored]
    refine hthird.bind (hfourth.bind ?_ (by omega)) (by omega)
    simp only [if_neg hsum]
    exact ⟨hfourth.within, fun _ => rfl⟩
  · cases h
    refine ⟨by simp only []; omega, ?_,
      ⟨CodeTree.needsBit_ofLengths _, CodeTree.needsBit_ofLengths _⟩, rfl⟩
    refine hfirst.bind (hsecond.bind ?_ (by simp only []; omega)) (by simp only []; omega)
    simp only [if_neg hstored, if_pos hfixed]
    exact ⟨hsecond.within, fun _ => rfl⟩
  · obtain ⟨⟨symbols, distances, after⟩, hcodes, h⟩ := bind_eq_ok.1 h
    cases h
    obtain ⟨hlt, hreads, hsymbols, hdistances⟩ := readCodes_determines hcodes
    refine ⟨by simp only []; omega, ?_, ⟨hsymbols, hdistances⟩, rfl⟩
    refine hfirst.bind (hsecond.bind ?_ (by simp only []; omega)) (by simp only []; omega)
    simp only [if_neg hstored, if_neg hfixed, if_pos hown]
    exact hreads.bind ⟨hreads.within, fun _ => rfl⟩ (Nat.le_refl _)

theorem extra_copyLengths_le {i base extra : Nat} (h : copyLengths[i]? = some (base, extra)) :
    extra ≤ 16 :=
  (by decide : ∀ e ∈ copyLengths, e.2 ≤ 16) _ (Array.mem_of_getElem? h)

theorem extra_copyDistances_le {i base extra : Nat}
    (h : copyDistances[i]? = some (base, extra)) : extra ≤ 16 :=
  (by decide : ∀ e ∈ copyDistances, e.2 ≤ 16) _ (Array.mem_of_getElem? h)

theorem size_copyBack (distance : Nat) : ∀ (count : Nat) (out : ByteArray),
    (copyBack out distance count).size = out.size + count
  | 0, out => rfl
  | count + 1, out => by
    rw [copyBack, size_copyBack distance count, ByteArray.size_push]
    omega

theorem readCoded_determines {symbols distances : CodeTree} (hsymbols : symbols.NeedsBit)
    (hdistances : distances.NeedsBit) (hmode : s.mode = .coded symbols distances)
    (h : readCoded data symbols distances s = .ok t) :
    s.pos < t.pos ∧ Determines data t.pos (readCoded · symbols distances s) t ∧ t.Sound ∧
      s.out.size ≤ t.out.size := by
  unfold readCoded at h ⊢
  obtain ⟨⟨sym, pos⟩, hsym, h⟩ := bind_eq_ok.1 h
  obtain ⟨hlt, hfirst⟩ := readSymbol_determines hsymbols hsym
  simp only [] at h
  split_ifs at h with hsingle hend
  · cases h
    refine ⟨hlt, ?_, ?_, ?_⟩
    · refine hfirst.bind ?_ (Nat.le_refl _)
      simp only [if_pos hsingle]
      exact ⟨hfirst.within, fun _ => rfl⟩
    · simp only [InflateState.Sound, hmode]
      exact ⟨hsymbols, hdistances⟩
    · simp
  · cases h
    refine ⟨hlt, ?_, sound_afterBlock .., Nat.le_refl _⟩
    refine hfirst.bind ?_ (Nat.le_refl _)
    simp only [if_neg hsingle, if_pos hend]
    exact ⟨hfirst.within, fun _ => rfl⟩
  · split at h
    · cases h
    · rename_i base extra hlength
      obtain ⟨more, hmore, h⟩ := bind_eq_ok.1 h
      obtain ⟨⟨distanceSym, next⟩, hdistance, h⟩ := bind_eq_ok.1 h
      have hsecond := readBits_determines hmore (extra_copyLengths_le hlength)
      obtain ⟨hlt₁, hthird⟩ := readSymbol_determines hdistances hdistance
      simp only [] at h
      split at h
      · cases h
      · rename_i base₁ extra₁ hback
        obtain ⟨far, hfar, h⟩ := bind_eq_ok.1 h
        cases h
        have hfourth := readBits_determines hfar (extra_copyDistances_le hback)
        refine ⟨by simp only []; omega, ?_, ?_, ?_⟩
        · refine hfirst.bind ?_ (by simp only []; omega)
          simp only [if_neg hsingle, if_neg hend, hlength]
          refine hsecond.bind (hthird.bind ?_ (by omega)) (by omega)
          simp only [hback]
          exact hfourth.bind ⟨hfourth.within, fun _ => rfl⟩ (Nat.le_refl _)
        · simp only [InflateState.Sound, hmode]
          exact ⟨hsymbols, hdistances⟩
        · rw [size_copyBack]
          exact Nat.le_add_right ..

end SealedText.Gzip
