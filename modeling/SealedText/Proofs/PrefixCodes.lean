import SealedText.Proofs.PackedBits

/-!
# Words of canonical codes

The words of a code that are not longer than some length take up a share of all numbers of that
length, and longer words come behind it (`space_mul_le_firstWord`). So no word is the start of
another (`not_prefix_bitsOf`), the tree of the code leads from each word to its symbol
(`leads_ofLengths`), and a symbol is read back where its word stands (`readSymbol_of_carries`).
-/

namespace SealedText.Gzip

variable {lengths : List Nat} {i j : Nat}

/-! ## Shares -/

/-- The words of at most a length, each with all numbers of that length that start with it. -/
def space (lengths : List Nat) (width : Nat) : Nat :=
  (lengths.map fun l => if 0 < l ∧ l ≤ width then 2 ^ (width - l) else 0).sum

theorem space_cons (l : Nat) (lengths : List Nat) (width : Nat) :
    space (l :: lengths) width =
      (if 0 < l ∧ l ≤ width then 2 ^ (width - l) else 0) + space lengths width := by
  rw [space, List.map_cons, List.sum_cons, space]

/-- A bit more doubles what the words take up, and brings in those of the new length. -/
theorem space_succ (width : Nat) : ∀ lengths : List Nat,
    space lengths (width + 1) = 2 * space lengths width + lengths.count (width + 1)
  | [] => rfl
  | l :: lengths => by
    rw [space_cons, space_cons, space_succ width lengths, List.count_cons]
    rcases (by omega : l = 0 ∨ 0 < l ∧ l ≤ width ∨ l = width + 1 ∨ width + 1 < l) with
      rfl | ⟨hpos, hle⟩ | rfl | hlong
    · simp
    · rw [if_pos ⟨hpos, by omega⟩, if_pos ⟨hpos, hle⟩, if_neg (by simp; omega),
        Nat.succ_sub hle, Nat.pow_succ]
      omega
    · simp
      omega
    · rw [if_neg (by omega), if_neg (by omega), if_neg (by simp; omega)]
      omega

theorem space_mul_le (lengths : List Nat) (width : Nat) : ∀ more : Nat,
    space lengths width * 2 ^ more ≤ space lengths (width + more)
  | 0 => by simp
  | more + 1 => by
    have ih := space_mul_le lengths width more
    rw [← Nat.add_assoc, space_succ, Nat.pow_succ, ← Nat.mul_assoc]
    omega

theorem space_zero : ∀ lengths : List Nat, space lengths 0 = 0
  | [] => rfl
  | l :: lengths => by rw [space_cons, if_neg (by omega), space_zero lengths]

/-- The lengths of a code: none is too long, and there is room for all words. -/
structure IsCode (lengths : List Nat) : Prop where
  short : ∀ l ∈ lengths, l ≤ maxCodeLength
  room : space lengths maxCodeLength ≤ 2 ^ maxCodeLength

theorem IsCode.space_le (h : IsCode lengths) {width : Nat} (hwidth : width ≤ maxCodeLength) :
    space lengths width ≤ 2 ^ width := by
  obtain ⟨more, hmore⟩ := Nat.exists_eq_add_of_le hwidth
  have hscaled : space lengths width * 2 ^ more ≤ 2 ^ width * 2 ^ more := by
    rw [← Nat.pow_add, ← hmore]
    refine Nat.le_trans ?_ h.room
    rw [hmore]
    exact space_mul_le lengths width more
  exact Nat.le_of_mul_le_mul_right hscaled (Nat.two_pow_pos more)

theorem coverage_eq (h : ∀ l ∈ lengths, l ≤ maxCodeLength) :
    coverage lengths = space lengths maxCodeLength := by
  have hfold : ∀ (ls : List Nat) (sum : Nat), (∀ l ∈ ls, l ≤ maxCodeLength) →
      ls.foldl (fun sum l => if l = 0 then sum else sum + (1 <<< (maxCodeLength - l))) sum =
        sum + space ls maxCodeLength := by
    intro ls
    induction ls with
    | nil => exact fun sum _ => rfl
    | cons l ls ih =>
      intro sum hls
      obtain ⟨hl, hls⟩ := List.forall_mem_cons.1 hls
      rw [List.foldl_cons, ih _ hls, space_cons]
      by_cases hzero : l = 0
      · rw [if_pos hzero, if_neg (by omega), Nat.zero_add]
      · rw [if_neg hzero, if_pos ⟨by omega, hl⟩, Nat.one_shiftLeft, Nat.add_assoc]
  rw [coverage, hfold lengths 0 h, Nat.zero_add]

theorem isCode_of_isComplete (h : ∀ l ∈ lengths, l ≤ maxCodeLength)
    (hcomplete : isComplete lengths = true) : IsCode lengths := by
  refine ⟨h, ?_⟩
  rw [← coverage_eq h, beq_iff_eq.1 hcomplete, Nat.one_shiftLeft]

/-! ## Words -/

/-- The first of the words of a length. -/
def firstWord (lengths : List Nat) (length : Nat) : Nat := 2 * space lengths (length - 1)

theorem firstWord_add_count {length : Nat} (h : 0 < length) :
    firstWord lengths length + lengths.count length = space lengths length := by
  obtain ⟨width, rfl⟩ := Nat.exists_eq_succ_of_ne_zero (Nat.ne_of_gt h)
  rw [space_succ]
  rfl

theorem space_mul_le_firstWord (lengths : List Nat) {width length : Nat} (h : width < length) :
    space lengths width * 2 ^ (length - width) ≤ firstWord lengths length := by
  obtain ⟨more, rfl⟩ := Nat.exists_eq_add_of_lt h
  have hle := space_mul_le lengths width more
  rw [firstWord, show width + more + 1 - width = more + 1 by omega, Nat.add_sub_cancel,
    Nat.pow_succ, ← Nat.mul_assoc]
  omega

/-- The word of a symbol: those of its length are given out in the order of the symbols. -/
def word (lengths : List Nat) (sym : Nat) : Nat × Nat :=
  let length := lengths.getD sym 0
  if length = 0 then (0, 0)
  else (length, firstWord lengths length + (lengths.take sym).count length)

theorem word_of_eq_zero (h : lengths.getD i 0 = 0) : word lengths i = (0, 0) := if_pos h

theorem word_of_ne_zero (h : lengths.getD i 0 ≠ 0) : word lengths i = (lengths.getD i 0,
    firstWord lengths (lengths.getD i 0) + (lengths.take i).count (lengths.getD i 0)) :=
  if_neg h

/-- The first words of all lengths, as they are worked out. -/
theorem foldl_firstWord {counts : Array Nat}
    (h : ∀ l ≤ maxCodeLength, counts.getD l 0 = lengths.count l) : ∀ n ≤ maxCodeLength + 1,
    (List.range n).foldl (fun (next : Array Nat) l =>
      if l < 2 then next.push 0
      else next.push ((next.getD (l - 1) 0 + counts.getD (l - 1) 0) * 2)) #[] =
        ((List.range n).map (firstWord lengths)).toArray
  | 0, _ => rfl
  | n + 1, hn => by
    rw [List.range_succ, List.foldl_append, foldl_firstWord h n (by omega), List.map_append,
      List.foldl_cons, List.foldl_nil]
    split_ifs with hlow
    · have hfirst : firstWord lengths n = 0 := by
        rw [firstWord, show n - 1 = 0 by omega, space_zero]
      simp [hfirst]
    · obtain ⟨k, rfl⟩ := Nat.exists_eq_add_of_le (Nat.not_lt.1 hlow)
      have hlast : ((List.range (2 + k)).map (firstWord lengths)).toArray.getD (2 + k - 1) 0 =
          firstWord lengths (1 + k) := by
        simp [show 2 + k - 1 = 1 + k by omega, show 1 + k < 2 + k by omega]
      have hcount : counts.getD (2 + k - 1) 0 = lengths.count (1 + k) := by
        rw [← h (1 + k) (by omega)]
        congr 1
        omega
      have hfirst : (firstWord lengths (1 + k) + lengths.count (1 + k)) * 2 =
          firstWord lengths (2 + k) := by
        rw [firstWord_add_count (by omega), firstWord, show 2 + k - 1 = 1 + k by omega,
          Nat.mul_comm]
      rw [hlast, hcount, hfirst]
      simp

/-- Give out the next word of a length. -/
def giveWord (acc : List (Nat × Nat) × Array Nat) (l : Nat) : List (Nat × Nat) × Array Nat :=
  if l = 0 then ((0, 0) :: acc.1, acc.2)
  else ((l, acc.2.getD l 0) :: acc.1, acc.2.modify l (· + 1))

theorem codewords_eq_foldl (lengths : List Nat) :
    codewords lengths = (lengths.foldl giveWord
      ([], ((List.range (maxCodeLength + 1)).map (firstWord lengths)).toArray)).1.reverse := by
  rw [← foldl_firstWord (fun l hl => ?_) _ (Nat.le_refl _)]
  · rfl
  · rw [Array.getD_eq_getD_getElem?, getElem?_foldl_modify]
    simp [Nat.lt_succ_of_le hl]

/-- After some symbols their words are given out, and the next word of each length has moved on. -/
theorem foldl_giveWord (h : ∀ l ∈ lengths, l ≤ maxCodeLength) : ∀ n ≤ lengths.length,
    ∃ next, (lengths.take n).foldl giveWord
        ([], ((List.range (maxCodeLength + 1)).map (firstWord lengths)).toArray) =
          (((List.range n).map (word lengths)).reverse, next) ∧
      ∀ l ≤ maxCodeLength, l ≠ 0 →
        next[l]? = some (firstWord lengths l + (lengths.take n).count l)
  | 0, _ => by
    refine ⟨_, rfl, fun l hl _ => ?_⟩
    simp [Nat.lt_succ_of_le hl]
  | n + 1, hn => by
    obtain ⟨next, hfold, hnext⟩ := foldl_giveWord h n (by omega)
    have hget : lengths.getD n 0 = lengths[n] := List.getD_eq_getElem _ _ hn
    have hlast : lengths[n] ≤ maxCodeLength := h _ (List.getElem_mem _)
    rw [List.take_succ_eq_append_getElem hn, List.foldl_append, hfold, List.range_succ,
      List.map_append, List.reverse_append, List.foldl_cons, List.foldl_nil, giveWord]
    by_cases hzero : lengths[n] = 0
    · refine ⟨next, ?_, fun l hl hne => ?_⟩
      · rw [if_pos hzero, List.map_singleton, word_of_eq_zero (hget.trans hzero)]
        rfl
      · rw [hnext l hl hne, List.count_append, hzero, List.count_singleton,
          if_neg (by simpa using hne.symm), Nat.add_zero]
    · refine ⟨next.modify lengths[n] (· + 1), ?_, fun l hl hne => ?_⟩
      · rw [if_neg hzero, Array.getD_eq_getD_getElem?, hnext _ hlast hzero, List.map_singleton,
          word_of_ne_zero (by rwa [hget]), hget]
        rfl
      · rw [Array.getElem?_modify, hnext l hl hne, List.count_append, List.count_singleton]
        by_cases hsame : lengths[n] = l
        · simp [hsame, Nat.add_assoc]
        · simp [hsame]

theorem codewords_eq (h : ∀ l ∈ lengths, l ≤ maxCodeLength) :
    codewords lengths = (List.range lengths.length).map (word lengths) := by
  obtain ⟨next, hfold, -⟩ := foldl_giveWord h lengths.length (Nat.le_refl _)
  rw [List.take_length] at hfold
  rw [codewords_eq_foldl, hfold, List.reverse_reverse]

/-! ## No word starts another -/

theorem lt_length_of_getD_ne_zero (h : lengths.getD i 0 ≠ 0) : i < lengths.length := by
  by_contra hle
  rw [List.getD_eq_default _ _ (Nat.not_lt.1 hle)] at h
  exact h rfl

theorem count_take_lt (hij : i < j) (h : lengths.getD i 0 ≠ 0) :
    (lengths.take i).count (lengths.getD i 0) < (lengths.take j).count (lengths.getD i 0) := by
  have hi := lt_length_of_getD_ne_zero h
  have hget : lengths.getD i 0 = lengths[i] := by simp [hi]
  have hle : (lengths.take (i + 1)).count lengths[i] ≤ (lengths.take j).count lengths[i] :=
    ((List.take_prefix_take_left hij).sublist).count_le _
  rw [List.take_succ_eq_append_getElem hi, List.count_append, List.count_singleton_self] at hle
  rw [hget]
  omega

theorem word_snd_lt_space (h : lengths.getD i 0 ≠ 0) :
    (word lengths i).2 < space lengths (lengths.getD i 0) := by
  have hi := lt_length_of_getD_ne_zero h
  have hlt := count_take_lt hi h
  rw [List.take_length] at hlt
  rw [word_of_ne_zero h, ← firstWord_add_count (Nat.pos_of_ne_zero h)]
  exact Nat.add_lt_add_left hlt _

theorem IsCode.getD_le (h : IsCode lengths) (sym : Nat) : lengths.getD sym 0 ≤ maxCodeLength := by
  by_cases hsym : lengths.getD sym 0 = 0
  · rw [hsym]
    exact Nat.zero_le _
  · have hlt := lt_length_of_getD_ne_zero hsym
    rw [List.getD_eq_getElem _ _ hlt]
    exact h.short _ (List.getElem_mem hlt)

theorem IsCode.word_lt (hcode : IsCode lengths) (h : lengths.getD i 0 ≠ 0) :
    (word lengths i).2 < 2 ^ (word lengths i).1 := by
  have hspace := Nat.lt_of_lt_of_le (word_snd_lt_space h) (hcode.space_le (hcode.getD_le i))
  rwa [word_of_ne_zero h] at hspace ⊢

/-- The bits of a word, highest first. -/
def wordBits (value : Nat) : Nat → List Bool
  | 0 => []
  | length + 1 => value.testBit length :: wordBits value length

theorem length_wordBits (value : Nat) : ∀ length : Nat, (wordBits value length).length = length
  | 0 => rfl
  | length + 1 => by rw [wordBits, List.length_cons, length_wordBits value length]

theorem wordBits_add (value more : Nat) : ∀ length : Nat,
    wordBits value (length + more) = wordBits (value / 2 ^ more) length ++ wordBits value more
  | 0 => by rw [Nat.zero_add, wordBits, List.nil_append]
  | length + 1 => by
    rw [Nat.succ_add, wordBits, wordBits_add value more length, wordBits, Nat.testBit_div_two_pow,
      List.cons_append]

theorem getElem?_wordBits (value : Nat) : ∀ {length k : Nat}, k < length →
    (wordBits value length)[k]? = some (value.testBit (length - 1 - k))
  | length + 1, 0, _ => rfl
  | length + 1, k + 1, hk => by
    rw [wordBits, List.getElem?_cons_succ, getElem?_wordBits value (Nat.lt_of_succ_lt_succ hk)]
    congr 2
    omega

theorem wordBits_inj {length v w : Nat} (hv : v < 2 ^ length) (hw : w < 2 ^ length)
    (h : wordBits v length = wordBits w length) : v = w := by
  refine Nat.eq_of_testBit_eq fun k => ?_
  rcases Nat.lt_or_ge k length with hlt | hge
  · have hbit := getElem?_wordBits v (show length - 1 - k < length by omega)
    rw [h, getElem?_wordBits w (by omega), Option.some.injEq,
      show length - 1 - (length - 1 - k) = k by omega] at hbit
    exact hbit.symm
  · have hpow := Nat.pow_le_pow_right (show 0 < 2 by decide) hge
    rw [Nat.testBit_lt_two_pow (Nat.lt_of_lt_of_le hv hpow),
      Nat.testBit_lt_two_pow (Nat.lt_of_lt_of_le hw hpow)]

/-- A word that starts another is what is left of that when its other bits are dropped. -/
theorem div_of_prefix {length length₁ v w : Nat} (hv : v < 2 ^ length) (hw : w < 2 ^ length₁)
    (h : wordBits v length <+: wordBits w length₁) :
    length ≤ length₁ ∧ w / 2 ^ (length₁ - length) = v := by
  have hle := h.length_le
  rw [length_wordBits, length_wordBits] at hle
  refine ⟨hle, ?_⟩
  obtain ⟨more, rfl⟩ := Nat.exists_eq_add_of_le hle
  obtain ⟨rest, hrest⟩ := h
  rw [wordBits_add] at hrest
  have hsame := (List.append_inj hrest (by rw [length_wordBits, length_wordBits])).1
  have hlow : w / 2 ^ more < 2 ^ length :=
    Nat.div_lt_of_lt_mul (by rwa [← Nat.pow_add, Nat.add_comm])
  rw [Nat.add_sub_cancel_left]
  exact (wordBits_inj hv hlow hsame).symm

/-- The bits of the word of a symbol. -/
def bitsOf (lengths : List Nat) (sym : Nat) : List Bool :=
  wordBits (word lengths sym).2 (word lengths sym).1

theorem not_prefix_bitsOf (hcode : IsCode lengths) (hij : i ≠ j) (hi : lengths.getD i 0 ≠ 0)
    (hj : lengths.getD j 0 ≠ 0) : ¬ bitsOf lengths i <+: bitsOf lengths j := by
  intro h
  obtain ⟨hle, hdiv⟩ := div_of_prefix (hcode.word_lt hi) (hcode.word_lt hj) h
  have hspace := word_snd_lt_space hi
  rw [← hdiv] at hspace
  simp only [word_of_ne_zero hi, word_of_ne_zero hj] at hle hdiv hspace
  rcases Nat.eq_or_lt_of_le hle with heq | hlt
  · rw [← heq, Nat.sub_self, Nat.pow_zero, Nat.div_one] at hdiv
    rcases Nat.lt_or_gt_of_ne hij with hlt | hgt
    · have hcount := count_take_lt hlt hi
      omega
    · have hcount := count_take_lt hgt hj
      rw [← heq] at hcount
      omega
  · have hfirst := space_mul_le_firstWord lengths hlt
    have hbelow := (Nat.div_lt_iff_lt_mul (Nat.two_pow_pos _)).1 hspace
    omega

/-! ## Trees -/

namespace CodeTree

/-- Some bits lead to a symbol of a tree. -/
def Leads : CodeTree → List Bool → Nat → Prop
  | t, [], sym => t = .symbol sym
  | .branch zero one, bit :: bits, sym =>
    if bit then one.Leads bits sym else zero.Leads bits sym
  | _, _ :: _, _ => False

theorem leads_insert (value sym : Nat) : ∀ (length : Nat) (t : CodeTree),
    (t.insert value sym length).Leads (wordBits value length) sym
  | 0, t => rfl
  | length + 1, t => by
    have ih := leads_insert value sym length
    simp only [insert, wordBits]
    split_ifs with hbit
    · rw [hbit]
      exact ih _
    · rw [Bool.eq_false_iff.2 hbit]
      exact ih _

theorem Leads.insert (value new : Nat) : ∀ {length : Nat} {t : CodeTree} {bits : List Bool}
    {sym : Nat}, t.Leads bits sym → ¬ bits <+: wordBits value length →
      ¬ wordBits value length <+: bits → (t.insert value new length).Leads bits sym
  | 0, t, bits, sym, _, _, hafter => absurd List.nil_prefix hafter
  | length + 1, t, [], sym, _, hbefore, _ => absurd List.nil_prefix hbefore
  | length + 1, .none, bit :: bits, sym, h, _, _ => h.elim
  | length + 1, .symbol n, bit :: bits, sym, h, _, _ => h.elim
  | length + 1, .branch zero one, bit :: bits, sym, h, hbefore, hafter => by
    rw [wordBits] at hbefore hafter
    have hsame : value.testBit length = bit → ∀ {t : CodeTree}, t.Leads bits sym →
        (t.insert value new length).Leads bits sym := by
      rintro rfl t ht
      exact ht.insert value new (fun hp => hbefore (List.cons_prefix_cons.2 ⟨rfl, hp⟩))
        (fun hp => hafter (List.cons_prefix_cons.2 ⟨rfl, hp⟩))
    rw [CodeTree.insert]
    cases bit with
    | false =>
      split_ifs with hbit
      · exact h
      · exact hsame (Bool.eq_false_iff.2 hbit) h
    | true =>
      split_ifs with hbit
      · exact hsame hbit h
      · exact h

/-- The tree of a code leads from the word of each symbol to that symbol. -/
theorem leads_ofLengths (hcode : IsCode lengths) (h : lengths.getD i 0 ≠ 0) :
    (ofLengths lengths).Leads (bitsOf lengths i) i := by
  have hfold : ∀ n, i < n → ((List.range n).foldl (fun (t : CodeTree) j =>
      if (word lengths j).1 = 0 then t
      else t.insert (word lengths j).2 j (word lengths j).1) .none).Leads (bitsOf lengths i) i := by
    intro n hn
    induction n with
    | zero => exact absurd hn (Nat.not_lt_zero i)
    | succ n ih =>
      rw [List.range_succ, List.foldl_append, List.foldl_cons, List.foldl_nil]
      rcases Nat.lt_succ_iff_lt_or_eq.1 hn with hlt | rfl
      · split_ifs with hnone
        · exact ih hlt
        · have hnext : lengths.getD n 0 ≠ 0 := fun hzero =>
            hnone (by rw [word_of_eq_zero hzero])
          exact (ih hlt).insert _ _ (not_prefix_bitsOf hcode (Nat.ne_of_lt hlt) h hnext)
            (not_prefix_bitsOf hcode (Nat.ne_of_gt hlt) hnext h)
      · rw [if_neg (by rwa [word_of_ne_zero h])]
        exact leads_insert ..
  rw [ofLengths, codewords_eq hcode.short, zipIdx_map_range, List.foldl_map]
  exact hfold _ (lt_length_of_getD_ne_zero h)

end CodeTree

/-! ## Reading -/

variable {data : ByteArray} {pos sym : Nat}

theorem walk_of_leads : ∀ {t : CodeTree} {bits : List Bool} {pos : Nat}, t.Leads bits sym →
    Carries data pos bits → walk data t pos = .ok (sym, pos + bits.length)
  | t, [], pos, h, _ => by
    rw [CodeTree.Leads] at h
    rw [h]
    rfl
  | .none, bit :: bits, pos, h, _ => h.elim
  | .symbol n, bit :: bits, pos, h, _ => h.elim
  | .branch zero one, bit :: bits, pos, h, hbits => by
    obtain ⟨hfirst, hrest⟩ := carries_append.1 (show Carries data pos ([bit] ++ bits) from hbits)
    have hbit : bit = (byteAt data (pos / 8)).testBit (pos % 8) := by
      simpa [bitAt] using hfirst.same 0 Nat.one_pos
    have hthere := hfirst.within
    rw [List.length_singleton] at hthere hrest
    rw [walk, if_pos (Nat.lt_of_succ_le hthere), ← hbit, List.length_cons,
      Nat.add_comm bits.length, ← Nat.add_assoc]
    cases bit with
    | false => exact walk_of_leads h hrest
    | true => exact walk_of_leads h hrest

theorem reversedBits_lt (value width : Nat) : reversedBits value width < 2 ^ width := by
  induction width generalizing value with
  | zero => exact Nat.one_pos
  | succ width ih =>
    have hrest := ih (value / 2)
    have hbit : value % 2 * 2 ^ width ≤ 1 * 2 ^ width :=
      Nat.mul_le_mul_right _ (by omega)
    rw [reversedBits, Nat.shiftLeft_eq, Nat.pow_succ]
    omega

theorem testBit_reversedBits : ∀ {width value k : Nat}, k < width →
    (reversedBits value width).testBit k = value.testBit (width - 1 - k)
  | width + 1, value, k, hk => by
    rw [reversedBits, Nat.shiftLeft_add_eq_or_of_lt (reversedBits_lt _ _), Nat.testBit_or,
      Nat.testBit_shiftLeft]
    rcases Nat.lt_succ_iff_lt_or_eq.1 hk with hlt | rfl
    · rw [decide_eq_false (by omega), Bool.false_and, Bool.false_or, testBit_reversedBits hlt,
        Nat.testBit_div_two]
      congr 1
      omega
    · rw [decide_eq_true (Nat.le_refl _), Bool.true_and,
        Nat.testBit_lt_two_pow (reversedBits_lt _ _), Bool.or_false, Nat.sub_self,
        Nat.add_sub_cancel, Nat.sub_self, Nat.testBit_zero, Nat.testBit_zero, Nat.mod_mod]

/-- A word that is turned round and written from its lowest bit on stands highest bit first. -/
theorem bits_reversedBits (value length : Nat) :
    Field.bits ⟨reversedBits value length, length⟩ = wordBits value length := by
  refine List.ext_getElem? fun k => ?_
  rcases Nat.lt_or_ge k length with hlt | hge
  · rw [Field.getElem?_bits hlt, testBit_reversedBits hlt, getElem?_wordBits value hlt]
  · rw [List.getElem?_eq_none (by rwa [Field.length_bits]),
      List.getElem?_eq_none (by rwa [length_wordBits])]

theorem getD_codeFields (h : ∀ l ∈ lengths, l ≤ maxCodeLength) (hsym : sym < lengths.length) :
    (codeFields lengths).getD sym noExtra =
      ⟨reversedBits (word lengths sym).2 (word lengths sym).1, (word lengths sym).1⟩ := by
  rw [codeFields, codewords_eq h, List.map_map, Array.getD_eq_getD_getElem?,
    List.getElem?_toArray, List.getElem?_map, List.getElem?_range hsym]
  rfl

theorem fits_codeFields (h : ∀ l ∈ lengths, l ≤ maxCodeLength) (sym : Nat) :
    ((codeFields lengths).getD sym noExtra).Fits := by
  rcases Nat.lt_or_ge sym lengths.length with hlt | hge
  · rw [getD_codeFields h hlt]
    exact reversedBits_lt _ _
  · have hsize : (codeFields lengths).size = lengths.length := by
      simp [codeFields, codewords_eq h]
    rw [Array.getD_eq_getD_getElem?, Array.getElem?_eq_none (by rwa [hsize])]
    exact fits_noExtra

theorem readSymbol_of_carries (hcode : IsCode lengths) (hsym : lengths.getD sym 0 ≠ 0)
    (h : Carries data pos ((codeFields lengths).getD sym noExtra).bits) :
    readSymbol data (.ofLengths lengths) pos = .ok (sym, pos + lengths.getD sym 0) := by
  rw [getD_codeFields hcode.short (lt_length_of_getD_ne_zero hsym), bits_reversedBits] at h
  have hlength : (bitsOf lengths sym).length = lengths.getD sym 0 := by
    rw [bitsOf, length_wordBits, word_of_ne_zero hsym]
  have hwithin := h.within
  rw [length_wordBits, word_of_ne_zero hsym] at hwithin
  rw [readSymbol, if_pos (by simp only [] at hwithin; omega), ← hlength]
  exact walk_of_leads (CodeTree.leads_ofLengths hcode hsym) h

end SealedText.Gzip
