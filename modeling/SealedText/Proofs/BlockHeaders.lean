import SealedText.Proofs.OptimalLengths

/-!
# Headers of blocks with codes of their own

The symbols of the code for lengths spell the lengths of both codes, single or in runs
(`covers_lengthSymbols`). There are two different ones at least, so that their code leaves no room
(`two_lengthSymbols`), and a reader of the header gets back the codes that it was made for
(`readCodes_of_carries`).
-/

namespace SealedText.Gzip

variable {lengths before all : List Nat} {cs ds : List Coded}

/-! ## Runs of lengths -/

/-- A symbol of the code for lengths stands for one or more of them. -/
inductive Adds (before : List Nat) : Coded → List Nat → Prop
  | single {l : Nat} (h : l < 16) : Adds before ⟨l, noExtra⟩ [l]
  | repeats {last n : Nat} (hlast : before.getLast? = some last) (hn : n < 4) :
    Adds before ⟨16, ⟨n, 2⟩⟩ (List.replicate (3 + n) last)
  | zeros {n : Nat} (hn : n < 8) : Adds before ⟨17, ⟨n, 3⟩⟩ (List.replicate (3 + n) 0)
  | manyZeros {n : Nat} (hn : n < 128) : Adds before ⟨18, ⟨n, 7⟩⟩ (List.replicate (11 + n) 0)

/-- Symbols of the code for lengths lead from some lengths to all of them. -/
inductive Covers : List Nat → List Coded → List Nat → Prop
  | nil (all : List Nat) : Covers all [] all
  | cons {before new all : List Nat} {c : Coded} {cs : List Coded} (h : Adds before c new)
      (hrest : Covers (before ++ new) cs all) : Covers before (c :: cs) all

theorem Adds.pos {c : Coded} {new : List Nat} (h : Adds before c new) : 0 < new.length := by
  cases h <;> simp

theorem Adds.symbol_lt {c : Coded} {new : List Nat} (h : Adds before c new) : c.symbol < 19 := by
  cases h with
  | single h => exact Nat.lt_trans h (by decide)
  | repeats hlast hn => exact (by decide : 16 < 19)
  | zeros hn => exact (by decide : 17 < 19)
  | manyZeros hn => exact (by decide : 18 < 19)

theorem Adds.fits {c : Coded} {new : List Nat} (h : Adds before c new) : c.extra.Fits := by
  cases h with
  | single h => exact fits_noExtra
  | repeats hlast hn => exact hn
  | zeros hn => exact hn
  | manyZeros hn => exact hn

theorem Covers.append {middle : List Nat} (h : Covers before cs middle)
    (hmore : Covers middle ds all) : Covers before (cs ++ ds) all := by
  induction h with
  | nil => exact hmore
  | cons hadds _ ih => exact .cons hadds (ih hmore)

theorem Covers.length_le (h : Covers before cs all) : before.length + cs.length ≤ all.length := by
  induction h with
  | nil => exact Nat.le_refl _
  | cons hadds hrest ih =>
    have hpos := hadds.pos
    rw [List.length_append] at ih
    rw [List.length_cons]
    omega

theorem Covers.of_mem (h : Covers before cs all) :
    ∀ c ∈ cs, c.symbol < 19 ∧ c.extra.Fits := by
  induction h with
  | nil => exact fun c hc => by cases hc
  | cons hadds hrest ih => exact List.forall_mem_cons.2 ⟨⟨hadds.symbol_lt, hadds.fits⟩, ih⟩

theorem covers_singles {l : Nat} (hl : l < 16) : ∀ (n : Nat) (before : List Nat),
    Covers before (List.replicate n ⟨l, noExtra⟩) (before ++ List.replicate n l)
  | 0, before => by simpa using Covers.nil before
  | n + 1, before => by
    have hrest := covers_singles hl n (before ++ [l])
    rw [List.append_assoc, List.singleton_append, ← List.replicate_succ] at hrest
    exact .cons (.single hl) hrest

theorem covers_zeroRun : ∀ {fuel n : Nat}, n ≤ fuel → ∀ before : List Nat,
    Covers before (zeroRun fuel n) (before ++ List.replicate n 0)
  | 0, n, h, before => by
    rw [Nat.eq_zero_of_le_zero h]
    simpa [zeroRun] using Covers.nil before
  | fuel + 1, n, h, before => by
    rw [zeroRun]
    split_ifs with hfew hsome
    · exact covers_singles (by decide) n before
    · have hadds : Adds before ⟨17, ⟨n - 3, 3⟩⟩ (List.replicate (3 + (n - 3)) 0) :=
        .zeros (by omega)
      rw [Nat.add_sub_cancel' (Nat.not_lt.1 hfew)] at hadds
      exact .cons hadds (.nil _)
    · have hadds : Adds before ⟨18, ⟨min n 138 - 11, 7⟩⟩
          (List.replicate (11 + (min n 138 - 11)) 0) := .manyZeros (by omega)
      have hrest := covers_zeroRun (by omega : n - 138 ≤ fuel)
        (before ++ List.replicate (11 + (min n 138 - 11)) 0)
      rw [List.append_assoc, List.replicate_append_replicate,
        show 11 + (min n 138 - 11) + (n - 138) = n by omega] at hrest
      exact .cons hadds hrest

theorem covers_repeatRun {l : Nat} (hl : l < 16) : ∀ {fuel n : Nat}, n ≤ fuel →
    ∀ before : List Nat, before.getLast? = some l →
      Covers before (repeatRun l fuel n) (before ++ List.replicate n l)
  | 0, n, h, before, _ => by
    rw [Nat.eq_zero_of_le_zero h]
    simpa [repeatRun] using Covers.nil before
  | fuel + 1, n, h, before, hlast => by
    rw [repeatRun]
    split_ifs with hfew
    · exact covers_singles hl n before
    · have hadds : Adds before ⟨16, ⟨min n 6 - 3, 2⟩⟩
          (List.replicate (3 + (min n 6 - 3)) l) := .repeats hlast (by omega)
      have hrest := covers_repeatRun hl (by omega : n - 6 ≤ fuel)
        (before ++ List.replicate (3 + (min n 6 - 3)) l) (by
          rw [List.getLast?_append, List.getLast?_replicate, if_neg (by omega), Option.some_or])
      rw [List.append_assoc, List.replicate_append_replicate,
        show 3 + (min n 6 - 3) + (n - 6) = n by omega] at hrest
      exact .cons hadds hrest

theorem covers_runSymbols {r : Nat × Nat} (hl : r.1 < 16) (hn : 0 < r.2) (before : List Nat) :
    Covers before (runSymbols r) (before ++ List.replicate r.2 r.1) := by
  unfold runSymbols
  split_ifs with hzero
  · rw [hzero]
    exact covers_zeroRun (Nat.le_refl _) before
  · have hrest := covers_repeatRun hl (Nat.sub_le r.2 1) (before ++ [r.1]) (by simp)
    rw [List.append_assoc, List.singleton_append, ← List.replicate_succ, Nat.sub_add_cancel hn]
      at hrest
    exact .cons (.single hl) hrest

theorem covers_runs : ∀ runs : List (Nat × Nat), (∀ r ∈ runs, r.1 < 16 ∧ 0 < r.2) →
    ∀ before : List Nat, Covers before (runs.flatMap runSymbols)
      (before ++ runs.flatMap fun r => List.replicate r.2 r.1)
  | [], _, before => by simpa using Covers.nil before
  | r :: runs, h, before => by
    obtain ⟨⟨hl, hn⟩, hruns⟩ := List.forall_mem_cons.1 h
    have hrest := covers_runs runs hruns (before ++ List.replicate r.2 r.1)
    rw [List.append_assoc] at hrest
    exact (covers_runSymbols hl hn before).append hrest

/-- Runs say what they were made from. -/
theorem flatMap_runsOf : ∀ lengths : List Nat,
    ((runsOf lengths).flatMap fun r => List.replicate r.2 r.1) = lengths
  | [] => rfl
  | l :: lengths => by
    have ih := flatMap_runsOf lengths
    rw [runsOf, List.foldr_cons, ← runsOf]
    rcases hruns : runsOf lengths with _ | ⟨⟨m, n⟩, rest⟩ <;> rw [hruns] at ih
    · rw [← ih]
      rfl
    · simp only [List.flatMap_cons] at ih ⊢
      split_ifs with hsame
      · rw [← ih, hsame]
        rfl
      · rw [← ih]
        rfl

theorem mem_runsOf {r : Nat × Nat} (h : r ∈ runsOf lengths) : r.1 ∈ lengths ∧ 0 < r.2 := by
  have hpos := (sum_runsOf lengths).2 r h
  refine ⟨?_, hpos⟩
  rw [← flatMap_runsOf lengths]
  exact List.mem_flatMap.2 ⟨r, h, List.mem_replicate.2 ⟨Nat.ne_of_gt hpos, rfl⟩⟩

theorem covers_lengthSymbols (h : ∀ l ∈ lengths, l < 16) :
    Covers [] (lengthSymbols lengths) lengths := by
  have hruns := covers_runs (runsOf lengths)
    (fun r hr => ⟨h r.1 (mem_runsOf hr).1, (mem_runsOf hr).2⟩) []
  rwa [flatMap_runsOf, List.nil_append] at hruns

/-! ## Two different symbols -/

/-- The first symbol of a run tells its length. -/
theorem exists_first {r : Nat × Nat} (hl : r.1 < 16) (hn : 0 < r.2) :
    ∃ c ∈ runSymbols r, c.symbol ≠ 16 ∧ (if c.symbol < 16 then c.symbol else 0) = r.1 := by
  unfold runSymbols
  split_ifs with hzero
  · obtain ⟨fuel, hfuel⟩ := Nat.exists_eq_succ_of_ne_zero (Nat.ne_of_gt hn)
    rw [hfuel, zeroRun, hzero]
    split_ifs
    · exact ⟨⟨0, noExtra⟩, by simp, by decide, rfl⟩
    · exact ⟨_, List.mem_singleton_self _, by simp, rfl⟩
    · exact ⟨_, List.mem_cons_self, by simp, rfl⟩
  · exact ⟨_, List.mem_cons_self, Nat.ne_of_lt hl, if_pos hl⟩

theorem runsOf_replicate (l : Nat) : ∀ n : Nat,
    runsOf (List.replicate (n + 1) l) = [(l, n + 1)]
  | 0 => rfl
  | n + 1 => by
    rw [List.replicate_succ, runsOf, List.foldr_cons, ← runsOf, runsOf_replicate l n]
    exact if_pos rfl

/-- Different lengths have different symbols, and a long run of one length has a symbol for repeats,
too. -/
theorem two_lengthSymbols (h : ∀ l ∈ lengths, l < 16) (hlong : 4 ≤ lengths.length) {l : Nat}
    (hl : l ∈ lengths) (hne : l ≠ 0) :
    ∃ c ∈ lengthSymbols lengths, ∃ d ∈ lengthSymbols lengths, c.symbol ≠ d.symbol := by
  by_cases hall : ∀ m ∈ lengths, m = l
  · obtain ⟨n, hn⟩ := Nat.exists_eq_add_of_le hlong
    have hrun : lengths = List.replicate (n + 3 + 1) l := by
      rw [List.eq_replicate_iff]
      exact ⟨by omega, hall⟩
    have hruns : runSymbols (l, n + 3 + 1) =
        ⟨l, noExtra⟩ :: ⟨16, ⟨min (n + 3) 6 - 3, 2⟩⟩ :: repeatRun l (n + 3) (n + 3 - 6) := by
      rw [runSymbols, if_neg hne, Nat.add_sub_cancel, repeatRun, if_neg (by omega)]
    rw [lengthSymbols_eq, hrun, runsOf_replicate, List.flatMap_singleton, hruns]
    exact ⟨_, List.mem_cons_self, _, List.mem_cons_of_mem _ List.mem_cons_self,
      Nat.ne_of_lt (h l hl)⟩
  · simp only [not_forall] at hall
    obtain ⟨m, hm, hml⟩ := hall
    have hfirst : ∀ k ∈ lengths, ∃ c ∈ lengthSymbols lengths, c.symbol ≠ 16 ∧
        (if c.symbol < 16 then c.symbol else 0) = k := by
      intro k hk
      have hmem := hk
      rw [← flatMap_runsOf lengths] at hmem
      obtain ⟨r, hr, hkr⟩ := List.mem_flatMap.1 hmem
      obtain ⟨c, hc, hfirst⟩ := exists_first (h r.1 (mem_runsOf hr).1) (mem_runsOf hr).2
      rw [← (List.mem_replicate.1 hkr).2] at hfirst
      exact ⟨c, List.mem_flatMap.2 ⟨r, hr, hc⟩, hfirst⟩
    obtain ⟨c, hc, -, hcl⟩ := hfirst l hl
    obtain ⟨d, hd, -, hdm⟩ := hfirst m hm
    exact ⟨c, hc, d, hd, fun hsame => hml (by rw [← hdm, ← hcl, hsame])⟩

/-! ## Reading lengths -/

variable {code : List Nat} {data : ByteArray} {pos : Nat}

/-- The bits of a symbol with its extra bits. -/
def Coded.bits (code : List Nat) (c : Coded) : List Bool :=
  ((codeFields code).getD c.symbol noExtra).bits ++ c.extra.bits

theorem flatMap_fields (code : List Nat) (c : Coded) :
    (c.fields (codeFields code)).flatMap Field.bits = c.bits code := by
  simp [Coded.fields, Coded.bits]

theorem fits_fields (hcode : IsCode code) {c : Coded} (hc : c.extra.Fits) :
    ∀ f ∈ c.fields (codeFields code), f.Fits := by
  simpa [Coded.fields] using And.intro (fits_codeFields hcode.short c.symbol) hc

theorem readSymbol_of_coded (hcode : IsCode code) {c : Coded} (hc : code.getD c.symbol 0 ≠ 0)
    (h : Carries data pos (c.bits code)) :
    ∃ next, readSymbol data (.ofLengths code) pos = .ok (c.symbol, next) ∧
      Carries data next c.extra.bits ∧ next + c.extra.width = pos + (c.bits code).length := by
  obtain ⟨hword, hextra⟩ := carries_append.1 h
  rw [Field.length_bits, width_codeFields] at hextra
  refine ⟨_, readSymbol_of_carries hcode hc hword, hextra, ?_⟩
  rw [Coded.bits, List.length_append, Field.length_bits, Field.length_bits, width_codeFields,
    Nat.add_assoc]

/-- One symbol adds its lengths to those in front of it. -/
theorem readLengths_of_adds (hcode : IsCode code) {c : Coded} {new : List Nat}
    (hadds : Adds before c new) (hc : code.getD c.symbol 0 ≠ 0)
    (h : Carries data pos (c.bits code)) {total : Nat} (htotal : before.length < total)
    (fuel : Nat) : readLengths data (.ofLengths code) total (fuel + 1) pos before.toArray =
      readLengths data (.ofLengths code) total fuel (pos + (c.bits code).length)
        (before ++ new).toArray := by
  obtain ⟨next, hsymbol, hextra, hnext⟩ := readSymbol_of_coded hcode hc h
  have happend (n l : Nat) : before.toArray ++ Array.replicate n l =
      (before ++ List.replicate n l).toArray := by
    rw [← List.toArray_replicate, List.append_toArray]
  rw [readLengths, if_neg (by rw [List.size_toArray]; omega),
    if_neg (by rw [List.size_toArray]; omega), hsymbol, ok_bind, ← hnext]
  cases hadds with
  | single hl =>
    simp only [if_pos hl]
    rw [List.push_toArray]
    rfl
  | @repeats last n hlast hn =>
    have hread : readBits data next 2 = .ok n :=
      readBits_of_carries hextra hn (show 2 ≤ 16 by decide)
    have hempty : before.toArray.isEmpty = false := by
      cases before with
      | nil => cases hlast
      | cons => rfl
    have hget : before.toArray.getD (before.toArray.size - 1) 0 = last := by
      rw [List.getLast?_eq_getElem?] at hlast
      rw [Array.getD_eq_getD_getElem?, List.getElem?_toArray, List.size_toArray, hlast]
      rfl
    simp only [hempty, hread, hget, ok_bind]
    rw [if_neg (by decide), if_pos trivial, if_neg (by decide), happend]
  | @zeros n hn =>
    have hread : readBits data next 3 = .ok n :=
      readBits_of_carries hextra hn (show 3 ≤ 16 by decide)
    simp only [hread, ok_bind]
    rw [if_neg (by decide), if_neg (by decide), if_pos trivial, happend]
  | @manyZeros n hn =>
    have hread : readBits data next 7 = .ok n :=
      readBits_of_carries hextra hn (show 7 ≤ 16 by decide)
    simp only [hread, ok_bind]
    rw [if_neg (by decide), if_neg (by decide), if_neg (by decide), happend]

theorem readLengths_of_covers (hcode : IsCode code) (h : Covers before cs all) :
    ∀ {pos fuel : Nat}, (∀ c ∈ cs, code.getD c.symbol 0 ≠ 0) →
      Carries data pos (cs.flatMap (·.bits code)) → cs.length < fuel →
        readLengths data (.ofLengths code) all.length fuel pos before.toArray =
          .ok (all.toArray, pos + (cs.flatMap (·.bits code)).length) := by
  induction h with
  | nil all =>
    intro pos fuel _ _ hfuel
    obtain ⟨fuel, rfl⟩ := Nat.exists_eq_succ_of_ne_zero (Nat.ne_of_gt hfuel)
    rw [readLengths, if_pos (by simp)]
    rfl
  | @cons before new all c cs hadds hrest ih =>
    intro pos fuel hused hbits hfuel
    obtain ⟨fuel, rfl⟩ := Nat.exists_eq_succ_of_ne_zero (Nat.ne_of_gt (Nat.zero_lt_of_lt hfuel))
    obtain ⟨hc, hcs⟩ := List.forall_mem_cons.1 hused
    have hlength := (Covers.cons hadds hrest).length_le
    rw [List.length_cons] at hlength
    rw [List.flatMap_cons] at hbits ⊢
    obtain ⟨hfirst, hmore⟩ := carries_append.1 hbits
    rw [readLengths_of_adds hcode hadds hc hfirst (by omega), List.length_append, ← Nat.add_assoc]
    exact ih hcs hmore (Nat.lt_of_succ_lt_succ hfuel)

/-! ## Reading headers -/

theorem readTriples_of_carries : ∀ {given : List Nat} {pos : Nat}, (∀ l ∈ given, l < 8) →
    Carries data pos ((given.map (⟨·, 3⟩)).flatMap Field.bits) →
      readTriples data pos given.length = .ok (given, pos + 3 * given.length)
  | [], pos, _, _ => rfl
  | l :: given, pos, h, hbits => by
    obtain ⟨hl, hgiven⟩ := List.forall_mem_cons.1 h
    rw [List.map_cons, List.flatMap_cons] at hbits
    obtain ⟨hfirst, hrest⟩ := carries_append.1 hbits
    have hread : readBits data pos 3 = .ok l :=
      readBits_of_carries hfirst hl (show 3 ≤ 16 by decide)
    rw [Field.length_bits] at hrest
    rw [List.length_cons, readTriples, hread, ok_bind, readTriples_of_carries hgiven hrest, ok_bind,
      Nat.mul_succ, Nat.add_assoc, Nat.add_comm 3]
    rfl

theorem length_triples (given : List Nat) :
    ((given.map (⟨·, 3⟩)).flatMap Field.bits).length = 3 * given.length := by
  rw [length_flatMap_bits, width_triples]

theorem getD_lookup_zip {x : Nat} : ∀ {xs : List Nat} (ys : List Nat), x ∈ xs →
    ((xs.zip ys).lookup x).getD 0 = ys.getD (xs.idxOf x) 0
  | a :: xs, [], _ => by simp
  | a :: xs, b :: ys, h => by
    rw [List.zip_cons_cons, List.lookup_cons, List.idxOf_cons]
    by_cases hsame : x = a
    · simp [hsame]
    · have hrest := getD_lookup_zip ys ((List.mem_cons.1 h).resolve_left hsame)
      simp [beq_eq_false_iff_ne.2 hsame, beq_eq_false_iff_ne.2 (Ne.symm hsame), hrest]

/-- Lengths in the order of a header are found again under their symbols. -/
theorem lookup_lengthOrder {given : List Nat} (h : code.length = 19)
    (hgiven : given = trimZeros 4 (lengthOrder.map fun i => code.getD i 0)) :
    ((List.range 19).map fun sym => ((lengthOrder.zip given).lookup sym).getD 0) = code := by
  refine List.ext_getElem (by simp [h]) fun sym hsym hcode => ?_
  rw [List.length_map, List.length_range] at hsym
  have hall : ∀ s < 19, s ∈ lengthOrder := by decide
  have hmem := hall sym hsym
  have hidx := List.idxOf_lt_length_of_mem hmem
  rw [List.getElem_map, List.getElem_range, getD_lookup_zip _ hmem, hgiven, getD_trimZeros,
    List.getD_eq_getElem _ _ (by rwa [List.length_map]), List.getElem_map, List.getElem_idxOf]
  exact List.getD_eq_getElem _ _ hcode

/-- No two lengths or one of a single bit: what words there are leave room. -/
theorem space_le_sum (width : Nat) : ∀ lengths : List Nat,
    space lengths width ≤ lengths.sum * 2 ^ (width - 1)
  | [] => Nat.zero_le _
  | l :: lengths => by
    have ih := space_le_sum width lengths
    rw [space_cons, List.sum_cons, Nat.add_mul]
    split_ifs with hl
    · have hpow : 2 ^ (width - l) ≤ 2 ^ (width - 1) := Nat.pow_le_pow_right (by decide) (by omega)
      have hone := Nat.mul_le_mul_right (2 ^ (width - 1)) hl.1
      rw [Nat.one_mul] at hone
      omega
    · omega

theorem isCode_of_isUsable (h : ∀ l ∈ lengths, l ≤ maxCodeLength)
    (husable : isUsable lengths = true) : IsCode lengths := by
  rw [isUsable, Bool.or_eq_true] at husable
  rcases husable with hcomplete | hfew
  · exact isCode_of_isComplete h hcomplete
  · rw [decide_eq_true_eq, ← List.sum_eq_foldl] at hfew
    refine ⟨h, Nat.le_trans (space_le_sum maxCodeLength lengths) ?_⟩
    exact Nat.le_trans (Nat.mul_le_mul_right _ hfew) (by decide)

theorem isUsable_append_zeros (lengths : List Nat) (n : Nat) :
    isUsable (lengths ++ List.replicate n 0) = isUsable lengths := by
  have hzeros (sum : Nat) : (List.replicate n 0).foldl
      (fun sum l => if l = 0 then sum else sum + (1 <<< (maxCodeLength - l))) sum = sum := by
    induction n with
    | zero => rfl
    | succ n ih => rw [List.replicate_succ, List.foldl_cons, if_pos rfl, ih]
  rw [isUsable, isUsable, isComplete, isComplete, coverage, coverage, List.foldl_append, hzeros,
    ← List.sum_eq_foldl, ← List.sum_eq_foldl, List.sum_append, List.sum_replicate_nat, Nat.mul_zero,
    Nat.add_zero]

theorem isUsable_trimZeros (least : Nat) (lengths : List Nat) :
    isUsable (trimZeros least lengths) = isUsable lengths := by
  obtain ⟨kept, zeros, pad, hlengths, htrim, -⟩ := trimZeros_append least lengths
  rw [htrim, hlengths, isUsable_append_zeros, isUsable_append_zeros]

/-- The lengths of a code that a header can give, for so many symbols. -/
structure Givable (least most : Nat) (lengths : List Nat) : Prop where
  least_le : least ≤ lengths.length
  le_most : lengths.length ≤ most
  short : ∀ l ∈ lengths, l ≤ maxCodeLength
  usable : isUsable lengths = true

theorem Givable.isCode {least most : Nat} (h : Givable least most lengths) : IsCode lengths :=
  isCode_of_isUsable h.short h.usable

section Codes

variable {symbolLengths distanceLengths : List Nat}

/-- The code for lengths that a header gives leaves no room, and has a word for each symbol that
spells them. -/
theorem lengthCode_spec {symbols : List Coded} (hlow : ∀ c ∈ symbols, c.symbol < 19)
    (htwo : ∃ c ∈ symbols, ∃ d ∈ symbols, c.symbol ≠ d.symbol)
    (hcode : code = codeLengths 7 (countSymbols 19 (symbols.map (·.symbol)))) :
    code.length = 19 ∧ (∀ i, code.getD i 0 ≤ 7) ∧ isComplete code = true ∧
      ∀ c ∈ symbols, code.getD c.symbol 0 ≠ 0 := by
  have hle := length_usedSymbols_le (countSymbols 19 (symbols.map (·.symbol)))
  have hmem : ∀ c ∈ symbols, ((countSymbols 19 (symbols.map (·.symbol))).getD c.symbol 0,
      c.symbol) ∈ usedSymbols (countSymbols 19 (symbols.map (·.symbol))) := fun c hc =>
    mem_usedSymbols.2 ⟨rfl, getD_countSymbols_ne_zero (List.mem_map_of_mem hc) (hlow c hc)⟩
  have hmore : 2 ≤ (usedSymbols (countSymbols 19 (symbols.map (·.symbol)))).length := by
    obtain ⟨c, hc, d, hd, hne⟩ := htwo
    have hsub := List.cons_subset.2
      ⟨hmem c hc, List.cons_subset.2 ⟨hmem d hd, List.nil_subset _⟩⟩
    exact (List.subperm_of_subset (by simp [hne]) hsub).length_le
  rw [length_countSymbols] at hle
  rw [hcode]
  exact ⟨by rw [length_codeLengths, length_countSymbols], getD_codeLengths_le (by decide) _,
    isComplete_codeLengths (by decide) (by decide) hmore (Nat.le_trans hle (by decide)),
    fun c hc =>
      getD_codeLengths_of_mem (by decide) (by decide) (List.mem_map_of_mem hc) (hlow c hc)⟩

/-- The lengths of the code for lengths that a header gives, three bits each. -/
theorem given_spec {given : List Nat} (h : ∀ i, code.getD i 0 ≤ 7)
    (hgiven : given = trimZeros 4 (lengthOrder.map fun i => code.getD i 0)) :
    4 ≤ given.length ∧ given.length ≤ 19 ∧ ∀ l ∈ given, l < 8 := by
  rw [hgiven]
  refine ⟨?_, length_trimZeros_le 4 _, fun l hl => ?_⟩
  · rw [trimZeros, List.length_append, List.length_replicate]
    omega
  · obtain ⟨i, hi, rfl⟩ := List.mem_iff_getElem.1 hl
    rw [← List.getD_eq_getElem _ 0 hi, getD_trimZeros, List.getD_eq_getElem?_getD,
      List.getElem?_map]
    cases lengthOrder[i]? with
    | none => exact (by decide : 0 < 8)
    | some j => exact Nat.lt_succ_of_le (h j)

/-- What a header is made of: a code for lengths, the lengths that give it, and the symbols that
spell all other lengths. -/
structure Heads (symbolLengths distanceLengths code given : List Nat) (symbols : List Coded) :
    Prop where
  header : codesHeader symbolLengths distanceLengths =
    [⟨symbolLengths.length - 257, 5⟩, ⟨distanceLengths.length - 1, 5⟩, ⟨given.length - 4, 4⟩] ++
      given.map (⟨·, 3⟩) ++ symbols.flatMap (·.fields (codeFields code))
  covers : Covers [] symbols (symbolLengths ++ distanceLengths)
  short : ∀ i, code.getD i 0 ≤ 7
  complete : isComplete code = true
  words : ∀ c ∈ symbols, code.getD c.symbol 0 ≠ 0
  found : ((List.range 19).map fun sym => ((lengthOrder.zip given).lookup sym).getD 0) = code
  least_le : 4 ≤ given.length
  le_most : given.length ≤ 19
  low : ∀ l ∈ given, l < 8

theorem exists_heads (hsymbols : Givable 257 286 symbolLengths)
    (hdistances : Givable 1 30 distanceLengths) {sym : Nat} (hne : symbolLengths.getD sym 0 ≠ 0) :
    ∃ code given symbols, Heads symbolLengths distanceLengths code given symbols := by
  have hshort : ∀ m ∈ symbolLengths ++ distanceLengths, m < 16 := by
    intro m hm
    rcases List.mem_append.1 hm with hm | hm
    · exact Nat.lt_succ_of_le (hsymbols.short m hm)
    · exact Nat.lt_succ_of_le (hdistances.short m hm)
  have hleast := hsymbols.least_le
  have hsym := lt_length_of_getD_ne_zero hne
  rw [List.getD_eq_getElem _ _ hsym] at hne
  have hcovers := covers_lengthSymbols hshort
  obtain ⟨hlength, hseven, hcomplete, hwords⟩ := lengthCode_spec
    (fun c hc => (hcovers.of_mem c hc).1) (two_lengthSymbols hshort
      (by rw [List.length_append]; omega) (List.mem_append_left _ (List.getElem_mem hsym)) hne) rfl
  obtain ⟨hfour, hnineteen, hlow⟩ := given_spec hseven rfl
  exact ⟨_, _, _, rfl, hcovers, hseven, hcomplete, hwords, lookup_lengthOrder hlength rfl, hfour,
    hnineteen, hlow⟩

variable {given : List Nat} {symbols : List Coded}

theorem Heads.isCode (h : Heads symbolLengths distanceLengths code given symbols) :
    IsCode code := by
  refine isCode_of_isComplete (fun l hl => ?_) h.complete
  obtain ⟨i, hi, rfl⟩ := List.mem_iff_getElem.1 hl
  rw [← List.getD_eq_getElem _ 0 hi]
  exact Nat.le_trans (h.short i) (by decide)

theorem Heads.fits (h : Heads symbolLengths distanceLengths code given symbols)
    (hsymbols : Givable 257 286 symbolLengths) (hdistances : Givable 1 30 distanceLengths) :
    ∀ f ∈ codesHeader symbolLengths distanceLengths, f.Fits := by
  have hleast := h.least_le
  have hmost := h.le_most
  have hmost₁ := hsymbols.le_most
  have hmost₂ := hdistances.le_most
  rw [h.header]
  simp only [List.forall_mem_append, List.forall_mem_cons, List.forall_mem_map]
  refine ⟨⟨⟨?_, ?_, ?_, by simp⟩, h.low⟩, fun f hf => ?_⟩
  · exact (by omega : symbolLengths.length - 257 < 2 ^ 5)
  · exact (by omega : distanceLengths.length - 1 < 2 ^ 5)
  · exact (by omega : given.length - 4 < 2 ^ 4)
  · obtain ⟨c, hc, hf⟩ := List.mem_flatMap.1 hf
    exact fits_fields h.isCode (h.covers.of_mem c hc).2 f hf

theorem Heads.readCodes (h : Heads symbolLengths distanceLengths code given symbols)
    (hsymbols : Givable 257 286 symbolLengths) (hdistances : Givable 1 30 distanceLengths)
    (hbits : Carries data pos
      ((codesHeader symbolLengths distanceLengths).flatMap Field.bits)) :
    readCodes data pos = .ok (.ofLengths symbolLengths, .ofLengths distanceLengths,
      pos + ((codesHeader symbolLengths distanceLengths).map Field.width).sum) := by
  have hleast := h.least_le
  have hmost := h.le_most
  have hleast₁ := hsymbols.least_le
  have hmost₁ := hsymbols.le_most
  have hleast₂ := hdistances.least_le
  have hmost₂ := hdistances.le_most
  have hfields : (symbols.flatMap (·.fields (codeFields code))).flatMap Field.bits =
      symbols.flatMap (·.bits code) := by
    rw [List.flatMap_assoc]
    simp only [flatMap_fields]
  rw [← length_flatMap_bits]
  simp only [h.header, List.flatMap_append, List.flatMap_cons, List.flatMap_nil, List.append_nil,
    List.append_assoc, hfields] at hbits ⊢
  obtain ⟨hfirst, hbits⟩ := carries_append.1 hbits
  obtain ⟨hsecond, hbits⟩ := carries_append.1 hbits
  obtain ⟨hthird, hbits⟩ := carries_append.1 hbits
  obtain ⟨htriples, hbits⟩ := carries_append.1 hbits
  have hspelled : (symbolLengths ++ distanceLengths).length =
      symbolLengths.length + distanceLengths.length := List.length_append
  have hlengths := readLengths_of_covers h.isCode h.covers h.words hbits
    (Nat.lt_succ_of_le (Nat.le_trans (Nat.le_add_left ..) h.covers.length_le))
  have hread := readBits_of_carries hfirst (show symbolLengths.length - 257 < 2 ^ 5 by omega)
    (show 5 ≤ 16 by decide)
  have hread₁ := readBits_of_carries hsecond (show distanceLengths.length - 1 < 2 ^ 5 by omega)
    (show 5 ≤ 16 by decide)
  have hread₂ := readBits_of_carries hthird (show given.length - 4 < 2 ^ 4 by omega)
    (show 4 ≤ 16 by decide)
  have hread₃ := readTriples_of_carries h.low htriples
  simp only [Field.length_bits, length_triples, Nat.add_assoc, Nat.reduceAdd, hspelled]
    at hread hread₁ hread₂ hread₃ hlengths
  have hbounds : (decide (symbolLengths.length > 286) || decide (distanceLengths.length > 30)) =
      false := by
    rw [Bool.or_eq_false_iff]
    exact ⟨decide_eq_false (Nat.not_lt.2 hmost₁), decide_eq_false (Nat.not_lt.2 hmost₂)⟩
  have hend (n : Nat) : pos + (5 + (5 + (4 + n))) = pos + (14 + n) := by omega
  unfold Gzip.readCodes
  simp only [hread, hread₁, hread₂, ok_bind, Nat.sub_add_cancel hleast, Nat.sub_add_cancel hleast₁,
    Nat.sub_add_cancel hleast₂, hbounds, hread₃, h.found, h.complete, hlengths, List.take_left,
    List.drop_left, hsymbols.usable, hdistances.usable, Bool.not_true, Bool.or_false,
    if_neg Bool.false_ne_true, List.length_append, Field.length_bits, length_triples, hend]
  rfl

/-- A reader of a header gets back the codes that it was made for. -/
theorem readCodes_of_carries (hsymbols : Givable 257 286 symbolLengths)
    (hdistances : Givable 1 30 distanceLengths) {sym : Nat} (hne : symbolLengths.getD sym 0 ≠ 0)
    (h : Carries data pos ((codesHeader symbolLengths distanceLengths).flatMap Field.bits)) :
    readCodes data pos = .ok (.ofLengths symbolLengths, .ofLengths distanceLengths,
      pos + ((codesHeader symbolLengths distanceLengths).map Field.width).sum) := by
  obtain ⟨code, given, symbols, hheads⟩ := exists_heads hsymbols hdistances hne
  exact hheads.readCodes hsymbols hdistances h

theorem fits_codesHeader (hsymbols : Givable 257 286 symbolLengths)
    (hdistances : Givable 1 30 distanceLengths) {sym : Nat} (hne : symbolLengths.getD sym 0 ≠ 0) :
    ∀ f ∈ codesHeader symbolLengths distanceLengths, f.Fits := by
  obtain ⟨code, given, symbols, hheads⟩ := exists_heads hsymbols hdistances hne
  exact hheads.fits hsymbols hdistances

end Codes

end SealedText.Gzip
