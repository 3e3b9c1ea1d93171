import Mathlib
import SealedText.Gzip.Member
import SealedText.Proofs.TextBytes

/-!
# How long a coded block is

A block is as long as its fields are wide, rounded up to whole bytes (`size_packBits`). The fields of
a block of literals are its header and one codeword per byte, so a long run of one byte takes about
one bit for each (`size_deflate_run_le`).
-/

namespace SealedText.Gzip

namespace BitBuffer

/-- The bits that were added. -/
def bits (b : BitBuffer) : Nat := 8 * b.done.size + b.count

theorem bits_flush : ∀ (n : Nat) (b : BitBuffer), (b.flush n).bits = b.bits
  | 0, _ => rfl
  | n + 1, b => by
    rw [flush]
    split
    · rfl
    · rw [bits_flush n]
      simp only [bits, ByteArray.size_push]
      omega

theorem count_flush : ∀ (n : Nat) {b : BitBuffer}, b.count < 8 * (n + 1) → (b.flush n).count < 8
  | 0, b, h => by
    rw [flush]
    omega
  | n + 1, b, h => by
    rw [flush]
    split
    · assumption
    · exact count_flush n (by simp only; omega)

theorem bits_add (b : BitBuffer) (f : Field) : (b.add f).bits = b.bits + f.width := by
  rw [add, bits_flush]
  simp only [bits]
  omega

theorem count_add (b : BitBuffer) (f : Field) : (b.add f).count < 8 := by
  rw [add]
  exact count_flush _ (by simp only; omega)

theorem bits_foldl_add : ∀ (fields : List Field) (b : BitBuffer),
    (fields.foldl add b).bits = b.bits + (fields.map Field.width).sum
  | [], _ => rfl
  | f :: fields, b => by
    rw [List.foldl_cons, bits_foldl_add fields, bits_add, List.map_cons, List.sum_cons, Nat.add_assoc]

theorem count_foldl_add : ∀ (fields : List Field) {b : BitBuffer}, b.count < 8 →
    (fields.foldl add b).count < 8
  | [], _, h => h
  | f :: fields, b, _ => count_foldl_add fields (count_add b f)

theorem size_finish {b : BitBuffer} (h : b.count < 8) : b.finish.size = (b.bits + 7) / 8 := by
  rw [finish, bits]
  split
  · omega
  · rw [ByteArray.size_push]
    omega

end BitBuffer

theorem size_packBits (fields : List Field) :
    (packBits fields).size = ((fields.map Field.width).sum + 7) / 8 := by
  rw [packBits, BitBuffer.size_finish (BitBuffer.count_foldl_add fields (by decide)),
    BitBuffer.bits_foldl_add]
  congr 2
  exact Nat.zero_add _

/-! ## Counting symbols -/

theorem getElem?_foldl_modify (i : Nat) : ∀ (symbols : List Nat) (a : Array Nat),
    (symbols.foldl (fun a sym => a.modify sym (· + 1)) a)[i]? =
      a[i]?.map (· + symbols.count i)
  | [], _ => by simp
  | sym :: symbols, a => by
    rw [List.foldl_cons, getElem?_foldl_modify i symbols, Array.getElem?_modify, List.count_cons]
    by_cases hsym : sym = i
    · simp [hsym, Function.comp_def, Nat.add_right_comm, ← Nat.add_assoc]
    · simp [hsym]

/-- Adding one for each symbol of a list counts them. -/
theorem toList_foldl_modify (size : Nat) (symbols : List Nat) :
    (symbols.foldl (fun a sym => a.modify sym (· + 1)) (Array.replicate size 0)).toList =
      (List.range size).map (symbols.count ·) := by
  refine List.ext_getElem? fun i => ?_
  rw [Array.getElem?_toList, getElem?_foldl_modify, List.getElem?_map]
  by_cases hi : i < size
  · simp [hi]
  · simp [hi]

theorem countSymbols_eq (size : Nat) (symbols : List Nat) :
    countSymbols size symbols = (List.range size).map (symbols.count ·) :=
  toList_foldl_modify size symbols

theorem length_countSymbols (size : Nat) (symbols : List Nat) :
    (countSymbols size symbols).length = size := by
  rw [countSymbols_eq, List.length_map, List.length_range]

theorem getD_countSymbols_ne_zero {size sym : Nat} {symbols : List Nat} (hmem : sym ∈ symbols)
    (hsym : sym < size) : (countSymbols size symbols).getD sym 0 ≠ 0 := by
  have hpos := List.count_pos_iff.2 hmem
  rw [countSymbols_eq]
  simpa [hsym] using Nat.ne_of_gt hpos

/-! ## Lengths of codewords -/

/-- How often a symbol occurs in packages. -/
def occurrences (packages : List Package) (sym : Nat) : Nat :=
  (packages.flatMap Package.symbols).count sym

theorem occurrences_cons (p : Package) (packages : List Package) (sym : Nat) :
    occurrences (p :: packages) sym = p.symbols.count sym + occurrences packages sym := by
  rw [occurrences, List.flatMap_cons, List.count_append, occurrences]

theorem occurrences_of_perm {ps qs : List Package} (h : ps.Perm qs) (sym : Nat) :
    occurrences ps sym = occurrences qs sym :=
  (h.flatMap_right _).count_eq sym

theorem occurrences_merge (ps qs : List Package) (sym : Nat) :
    occurrences (ps.merge qs lighter) sym = occurrences ps sym + occurrences qs sym := by
  rw [occurrences_of_perm (List.merge_perm_append lighter), occurrences, List.flatMap_append,
    List.count_append, occurrences, occurrences]

theorem occurrences_pairUp_le (ps : List Package) (sym : Nat) :
    occurrences (pairUp ps) sym ≤ occurrences ps sym := by
  fun_induction pairUp ps with
  | case1 p q rest ih =>
    simp only [occurrences_cons, Package.join, List.count_append]
    omega
  | case2 => exact Nat.zero_le _

/-- Each round brings in each single symbol once. -/
theorem occurrences_mergeRounds_le (singles : List Package) (sym : Nat) : ∀ rounds : Nat,
    occurrences (mergeRounds singles rounds) sym ≤ (rounds + 1) * occurrences singles sym
  | 0 => Nat.le_of_eq (Nat.one_mul _).symm
  | rounds + 1 => by
    have hpairs := occurrences_pairUp_le (mergeRounds singles rounds) sym
    have ih := occurrences_mergeRounds_le singles sym rounds
    rw [mergeRounds, occurrences_merge, Nat.succ_mul]
    omega

theorem occurrences_take_le (n : Nat) (ps : List Package) (sym : Nat) :
    occurrences (ps.take n) sym ≤ occurrences ps sym := by
  have hsplit : occurrences ps sym = occurrences (ps.take n) sym + occurrences (ps.drop n) sym := by
    rw [occurrences, ← List.take_append_drop n ps, List.flatMap_append, List.count_append,
      List.take_append_drop, occurrences, occurrences]
  omega

/-- The symbols that are used, with their counts. -/
def usedSymbols (counts : List Nat) : List (Nat × Nat) := counts.zipIdx.filter fun c => c.1 ≠ 0

theorem length_usedSymbols_le (counts : List Nat) :
    (usedSymbols counts).length ≤ counts.length := by
  have hle := List.length_filter_le (fun c : Nat × Nat => decide (c.1 ≠ 0)) counts.zipIdx
  rwa [List.length_zipIdx] at hle

theorem nodup_usedSymbols (counts : List Nat) : ((usedSymbols counts).map (·.2)).Nodup := by
  have hall : (counts.zipIdx.map (·.2)).Nodup := by
    rw [List.zipIdx_map_snd]
    exact List.nodup_range'
  exact hall.sublist (List.filter_sublist.map _)

def singlesOf (counts : List Nat) : List Package :=
  ((usedSymbols counts).map fun c => (⟨c.1, [c.2]⟩ : Package)).mergeSort lighter

theorem occurrences_singlesOf_le (counts : List Nat) (sym : Nat) :
    occurrences (singlesOf counts) sym ≤ 1 := by
  have hsymbols : ((usedSymbols counts).map fun c => (⟨c.1, [c.2]⟩ : Package)).flatMap
      Package.symbols = (usedSymbols counts).map (·.2) := by
    rw [List.flatMap_map, List.map_eq_flatMap]
  rw [singlesOf, occurrences_of_perm (List.mergeSort_perm _ _), occurrences, hsymbols]
  exact List.nodup_iff_count.1 (nodup_usedSymbols counts) sym

/-- More than one symbol: a codeword is as long as its symbol occurs often among the lightest. -/
theorem codeLengths_eq (limit : Nat) {counts : List Nat} (h : (usedSymbols counts).length ≠ 1) :
    codeLengths limit counts = (List.range counts.length).map (occurrences
      ((mergeRounds (singlesOf counts) (limit - 1)).take (2 * ((singlesOf counts).length - 1)))) := by
  unfold codeLengths
  simp only []
  split
  · rename_i c sym hused
    rw [usedSymbols, hused] at h
    exact absurd rfl h
  · rw [← List.foldl_flatMap]
    exact toList_foldl_modify counts.length _

theorem le_of_mem_codeLengths {limit : Nat} (hlimit : 0 < limit) {counts : List Nat} :
    ∀ l ∈ codeLengths limit counts, l ≤ limit := by
  intro l hl
  by_cases hlone : (usedSymbols counts).length = 1
  · obtain ⟨⟨c, sym⟩, hused⟩ := List.length_eq_one_iff.1 hlone
    unfold codeLengths at hl
    rw [usedSymbols] at hused
    simp only [hused, List.mem_map, List.mem_range] at hl
    obtain ⟨i, -, rfl⟩ := hl
    split <;> omega
  · rw [codeLengths_eq limit hlone] at hl
    obtain ⟨sym, -, rfl⟩ := List.mem_map.1 hl
    have htake := occurrences_take_le (2 * ((singlesOf counts).length - 1))
      (mergeRounds (singlesOf counts) (limit - 1)) sym
    have hrounds := occurrences_mergeRounds_le (singlesOf counts) sym (limit - 1)
    have hsingle := Nat.mul_le_mul_left (limit - 1 + 1) (occurrences_singlesOf_le counts sym)
    omega

theorem mergeSort_pair (p q : Package) :
    [p, q].mergeSort lighter = if lighter p q then [p, q] else [q, p] := by
  simp [List.mergeSort, List.MergeSort.Internal.splitInTwo, List.merge]

theorem mergeRounds_pair (p q : Package) : ∀ rounds : Nat,
    mergeRounds [p, q] (rounds + 1) = [p, q, p.join q] := by
  have hp : lighter p (p.join q) = true := by simp [lighter, Package.join]
  have hq : lighter q (p.join q) = true := by simp [lighter, Package.join]
  intro rounds
  induction rounds with
  | zero => simp [mergeRounds, pairUp, hp, hq]
  | succ rounds ih =>
    rw [mergeRounds, ih]
    simp [pairUp, hp, hq]

/-- Two symbols have one bit each. -/
theorem codeLengths_pair {limit : Nat} (hlimit : 2 ≤ limit) {counts : List Nat} {x y i j : Nat}
    (hused : usedSymbols counts = [(x, i), (y, j)]) :
    codeLengths limit counts = (List.range counts.length).map ([i, j].count ·) := by
  obtain ⟨rounds, hrounds⟩ : ∃ rounds, limit - 1 = rounds + 1 := ⟨limit - 2, by omega⟩
  have hmore : (usedSymbols counts).length ≠ 1 := by simp [hused]
  have hsingles : singlesOf counts =
      if x ≤ y then [⟨x, [i]⟩, ⟨y, [j]⟩] else [⟨y, [j]⟩, ⟨x, [i]⟩] := by
    rw [singlesOf, hused]
    simp [mergeSort_pair, lighter]
  rw [codeLengths_eq limit hmore, hrounds]
  refine List.map_congr_left fun sym _ => ?_
  by_cases hle : x ≤ y
  · rw [hsingles, if_pos hle, mergeRounds_pair]
    simp [occurrences]
  · rw [hsingles, if_neg hle, mergeRounds_pair]
    simp [occurrences, List.count_cons, Nat.add_comm]

theorem zipIdx_map_range {α : Type} (f : Nat → α) (n : Nat) :
    ((List.range n).map f).zipIdx = (List.range n).map fun i => (f i, i) :=
  List.ext_getElem (by simp) fun i _ _ => by simp

theorem usedSymbols_map_range (f : Nat → Nat) (m : Nat) :
    usedSymbols ((List.range m).map f) =
      ((List.range m).filter (f · ≠ 0)).map fun i => (f i, i) := by
  rw [usedSymbols, zipIdx_map_range, List.filter_map]
  rfl

/-! ## Codewords -/

theorem map_fst_codewords (lengths : List Nat) : (codewords lengths).map (·.1) = lengths := by
  have hfold : ∀ (ls : List Nat) (acc : List (Nat × Nat) × Array Nat),
      ((ls.foldl (fun (acc : List (Nat × Nat) × Array Nat) l =>
        if l = 0 then ((0, 0) :: acc.1, acc.2)
        else ((l, acc.2.getD l 0) :: acc.1, acc.2.modify l (· + 1))) acc).1.reverse.map (·.1)) =
          acc.1.reverse.map (·.1) ++ ls := by
    intro ls
    induction ls with
    | nil => simp
    | cons l ls ih =>
      intro acc
      rw [List.foldl_cons, ih]
      split
      next h => simp [h]
      next h => simp
  rw [codewords, hfold]
  rfl

theorem width_codeFields (lengths : List Nat) (symbol : Nat) :
    ((codeFields lengths).getD symbol noExtra).width = lengths.getD symbol 0 := by
  have hwidths : ((codewords lengths).map fun w => (⟨reversedBits w.2 w.1, w.1⟩ : Field)).map
      Field.width = lengths := by
    rw [List.map_map]
    exact map_fst_codewords lengths
  rw [codeFields]
  generalize ((codewords lengths).map fun w => (⟨reversedBits w.2 w.1, w.1⟩ : Field)) = fields at *
  rw [← hwidths]
  simp only [Array.getD_eq_getD_getElem?, List.getElem?_toArray, List.getD_eq_getElem?_getD,
    List.getElem?_map]
  cases fields[symbol]? <;> rfl

theorem width_fields (lengths : List Nat) (c : Coded) :
    ((c.fields (codeFields lengths)).map Field.width).sum =
      lengths.getD c.symbol 0 + c.extra.width := by
  rw [← width_codeFields]
  rfl

/-! ## Blocks of literals -/

theorem width_bodyFields_literals (symbolLengths distanceLengths : List Nat) (bytes : List UInt8) :
    ((bodyFields symbolLengths distanceLengths
        ((bytes.map Token.literal).map (·.coded))).map Field.width).sum =
      (bytes.map fun b => symbolLengths.getD b.toNat 0).sum + symbolLengths.getD endOfBlock 0 := by
  rw [bodyFields]
  simp only [List.map_append, List.sum_append, List.map_cons, List.map_nil, List.sum_cons,
    List.sum_nil, width_codeFields]
  congr 1
  induction bytes with
  | nil => rfl
  | cons b bytes ih =>
    simp only [List.map_cons, List.flatMap_cons, List.map_append, List.sum_append, List.sum_cons, ih]
    congr 1
    rw [← width_codeFields]
    rfl

theorem filter_range_pair (a k l : Nat) :
    (List.range (a + (1 + (k + (1 + l))))).filter (fun i => i = a ∨ i = a + 1 + k) =
      [a, a + 1 + k] := by
  have hnone (s n : Nat) (h : ∀ i, s ≤ i → i < s + n → i ≠ a ∧ i ≠ a + 1 + k) :
      (List.range' s n).filter (fun i => i = a ∨ i = a + 1 + k) = [] := by
    rw [List.filter_eq_nil_iff]
    intro i hi
    obtain ⟨hlow, hhigh⟩ := List.mem_range'_1.1 hi
    obtain ⟨ha, hb⟩ := h i hlow hhigh
    simp [ha, hb]
  simp only [List.range_eq_range', ← List.range'_append_1, List.filter_append, Nat.zero_add]
  rw [hnone 0 a (by omega), hnone (a + 1) k (by omega), hnone (a + 1 + k + 1) l (by omega)]
  simp

/-- In a run of one byte, the byte and the end of the block have one bit each. -/
theorem codeLengths_run {n : Nat} (hn : 0 < n) (b : UInt8) :
    codeLengths maxCodeLength (countSymbols 286 (endOfBlock :: List.replicate n b.toNat)) =
      (List.range 286).map ([b.toNat, endOfBlock].count ·) := by
  have hb : b.toNat < 256 := b.toNat_lt
  have hne : ¬ endOfBlock = b.toNat := Nat.ne_of_gt hb
  have hcount : ∀ i, (endOfBlock :: List.replicate n b.toNat).count i ≠ 0 ↔
      i = b.toNat ∨ i = endOfBlock := by
    intro i
    rw [Ne, List.count_eq_zero, Decidable.not_not, List.mem_cons, List.mem_replicate]
    omega
  have hfilter : (List.range 286).filter
      (fun i => (endOfBlock :: List.replicate n b.toNat).count i ≠ 0) = [b.toNat, endOfBlock] := by
    have hpair := filter_range_pair b.toNat (endOfBlock - b.toNat - 1) 29
    have hend : b.toNat + 1 + (endOfBlock - b.toNat - 1) = endOfBlock := by
      rw [endOfBlock]
      omega
    have hall : b.toNat + (1 + (endOfBlock - b.toNat - 1 + (1 + 29))) = 286 := by
      rw [endOfBlock]
      omega
    rw [hall, hend] at hpair
    rw [← hpair]
    exact List.filter_congr fun i _ => by simp only [hcount]
  have hused : usedSymbols (countSymbols 286 (endOfBlock :: List.replicate n b.toNat)) =
      [(n, b.toNat), (1, endOfBlock)] := by
    rw [countSymbols_eq, usedSymbols_map_range, hfilter]
    simp [List.count_cons, List.count_replicate, hne, Ne.symm hne]
  rw [codeLengths_pair (by decide) hused, length_countSymbols]

/-! ## Headers -/

/-- Only zeros are left out. -/
theorem trimZeros_append (least : Nat) (lengths : List Nat) :
    ∃ kept zeros pad, lengths = kept ++ List.replicate zeros 0 ∧
      trimZeros least lengths = kept ++ List.replicate pad 0 ∧ pad = least - kept.length := by
  have hsplit := List.takeWhile_append_dropWhile (p := (· == 0)) (l := lengths.reverse)
  have hzeros : lengths.reverse.takeWhile (· == 0) =
      List.replicate (lengths.reverse.takeWhile (· == 0)).length 0 := by
    rw [List.eq_replicate_iff]
    have hall := List.all_eq_true.1 (List.all_takeWhile (p := (· == 0)) (l := lengths.reverse))
    exact ⟨rfl, fun l hl => by simpa using hall l hl⟩
  refine ⟨(lengths.reverse.dropWhile (· == 0)).reverse,
    (lengths.reverse.takeWhile (· == 0)).length, _, ?_, rfl, rfl⟩
  rw [← List.reverse_inj, List.reverse_append, List.reverse_reverse, List.reverse_replicate,
    ← hzeros, hsplit]

theorem getD_append_zeros (lengths : List Nat) (zeros i : Nat) :
    (lengths ++ List.replicate zeros 0).getD i 0 = lengths.getD i 0 := by
  simp only [List.getD_eq_getElem?_getD, List.getElem?_append, List.getElem?_replicate]
  split
  · rfl
  · rename_i h
    rw [List.getElem?_eq_none (Nat.not_lt.1 h)]
    split <;> rfl

theorem getD_trimZeros (least : Nat) (lengths : List Nat) (i : Nat) :
    (trimZeros least lengths).getD i 0 = lengths.getD i 0 := by
  obtain ⟨kept, zeros, pad, hlengths, htrim, -⟩ := trimZeros_append least lengths
  rw [htrim, getD_append_zeros, hlengths, getD_append_zeros]

theorem length_trimZeros_le (least : Nat) (lengths : List Nat) :
    (trimZeros least lengths).length ≤ max least lengths.length := by
  obtain ⟨kept, zeros, pad, hlengths, htrim, hpad⟩ := trimZeros_append least lengths
  rw [htrim, hlengths]
  simp only [List.length_append, List.length_replicate]
  omega

/-- The most bits of a symbol of the code for lengths, with its extra bits. -/
def Coded.room (c : Coded) : Nat := 7 + c.extra.width

theorem room_zeroRun_le : ∀ (fuel n : Nat), ((zeroRun fuel n).map Coded.room).sum ≤ 14 * n
  | 0, _ => Nat.zero_le _
  | fuel + 1, n => by
    rw [zeroRun]
    split
    · simp [Coded.room, noExtra]
      omega
    · split
      · simp [Coded.room]
        omega
      · have ih := room_zeroRun_le fuel (n - 138)
        simp only [List.map_cons, List.sum_cons, Coded.room]
        omega

theorem room_repeatRun_le (length : Nat) : ∀ (fuel n : Nat),
    ((repeatRun length fuel n).map Coded.room).sum ≤ 14 * n
  | 0, _ => Nat.zero_le _
  | fuel + 1, n => by
    rw [repeatRun]
    split
    · simp [Coded.room, noExtra]
      omega
    · have ih := room_repeatRun_le length fuel (n - 6)
      simp only [List.map_cons, List.sum_cons, Coded.room]
      omega

theorem sum_runsOf : ∀ lengths : List Nat, ((runsOf lengths).map (·.2)).sum = lengths.length ∧
    ∀ r ∈ runsOf lengths, 0 < r.2
  | [] => ⟨rfl, fun r h => by cases h⟩
  | l :: lengths => by
    obtain ⟨hsum, hpos⟩ := sum_runsOf lengths
    rw [runsOf, List.foldr_cons, ← runsOf]
    rcases hruns : runsOf lengths with _ | ⟨⟨m, n⟩, rest⟩ <;> rw [hruns] at hsum hpos
    · simp only [List.map_nil, List.sum_nil] at hsum
      simp [← hsum]
    · simp only []
      split
      · simp only [List.map_cons, List.sum_cons, List.length_cons] at hsum ⊢
        refine ⟨by omega, List.forall_mem_cons.2 ⟨Nat.succ_pos n, ?_⟩⟩
        exact (List.forall_mem_cons.1 hpos).2
      · simp only [List.map_cons, List.sum_cons, List.length_cons] at hsum ⊢
        exact ⟨by omega, List.forall_mem_cons.2 ⟨Nat.one_pos, hpos⟩⟩

/-- The symbols of a run. -/
def runSymbols (r : Nat × Nat) : List Coded :=
  if r.1 = 0 then zeroRun r.2 r.2 else ⟨r.1, noExtra⟩ :: repeatRun r.1 r.2 (r.2 - 1)

theorem lengthSymbols_eq (lengths : List Nat) :
    lengthSymbols lengths = (runsOf lengths).flatMap runSymbols := rfl

theorem room_runSymbols_le {r : Nat × Nat} (hn : 0 < r.2) :
    ((runSymbols r).map Coded.room).sum ≤ 14 * r.2 := by
  have hfirst : Coded.room ⟨r.1, noExtra⟩ = 7 := rfl
  have hrepeats := room_repeatRun_le r.1 r.2 (r.2 - 1)
  unfold runSymbols
  split_ifs
  · exact room_zeroRun_le r.2 r.2
  · rw [List.map_cons, List.sum_cons, hfirst]
    omega

theorem room_runs_le : ∀ {runs : List (Nat × Nat)}, (∀ r ∈ runs, 0 < r.2) →
    ((runs.flatMap runSymbols).map Coded.room).sum ≤ 14 * (runs.map (·.2)).sum
  | [], _ => Nat.zero_le _
  | r :: runs, h => by
    obtain ⟨hn, hruns⟩ := List.forall_mem_cons.1 h
    have hrun := room_runSymbols_le hn
    have ih := room_runs_le hruns
    rw [List.flatMap_cons, List.map_append, List.sum_append, List.map_cons, List.sum_cons]
    omega

theorem room_lengthSymbols_le (lengths : List Nat) :
    ((lengthSymbols lengths).map Coded.room).sum ≤ 14 * lengths.length := by
  obtain ⟨hsum, hpos⟩ := sum_runsOf lengths
  rw [← hsum, lengthSymbols_eq]
  exact room_runs_le hpos

theorem getD_codeLengths_le {limit : Nat} (hlimit : 0 < limit) (counts : List Nat) (i : Nat) :
    (codeLengths limit counts).getD i 0 ≤ limit := by
  rw [List.getD_eq_getElem?_getD]
  cases h : (codeLengths limit counts)[i]? with
  | none => exact Nat.zero_le _
  | some l => exact le_of_mem_codeLengths hlimit l (List.mem_of_getElem? h)

theorem width_flatMap_fields_le {lengths : List Nat} (h : ∀ i, lengths.getD i 0 ≤ 7) :
    ∀ cs : List Coded, ((cs.flatMap (·.fields (codeFields lengths))).map Field.width).sum ≤
      (cs.map Coded.room).sum
  | [] => Nat.le_refl _
  | c :: cs => by
    have hword := h c.symbol
    have ih := width_flatMap_fields_le h cs
    rw [List.flatMap_cons, List.map_append, List.sum_append, width_fields, List.map_cons,
      List.sum_cons, Coded.room]
    omega

theorem width_triples (given : List Nat) :
    ((given.map (⟨·, 3⟩)).map Field.width).sum = 3 * given.length := by
  rw [List.map_map]
  change (given.map fun _ => 3).sum = 3 * given.length
  rw [List.map_const', List.sum_replicate_nat, Nat.mul_comm]

/-- The header of a block takes at most fourteen bits for each of the lengths in it. -/
theorem width_codesHeader_le (symbolLengths distanceLengths : List Nat) :
    ((codesHeader symbolLengths distanceLengths).map Field.width).sum ≤
      71 + 14 * (symbolLengths.length + distanceLengths.length) := by
  unfold codesHeader
  simp only []
  generalize hsymbols : lengthSymbols (symbolLengths ++ distanceLengths) = symbols
  generalize hlengths : codeLengths 7 (countSymbols 19 (symbols.map (·.symbol))) = lengthLengths
  generalize hgiven : trimZeros 4 (lengthOrder.map fun i => lengthLengths.getD i 0) = given
  have hroom := room_lengthSymbols_le (symbolLengths ++ distanceLengths)
  rw [hsymbols, List.length_append] at hroom
  have hcount : given.length ≤ 19 := by
    rw [← hgiven]
    exact length_trimZeros_le 4 _
  have hlong : ∀ i, lengthLengths.getD i 0 ≤ 7 := by
    rw [← hlengths]
    exact getD_codeLengths_le (by decide) _
  have hwords := width_flatMap_fields_le hlong symbols
  simp only [List.map_append, List.sum_append, width_triples, List.map_cons, List.map_nil,
    List.sum_cons, List.sum_nil]
  omega

/-! ## Runs of one byte -/

theorem length_codeLengths (limit : Nat) (counts : List Nat) :
    (codeLengths limit counts).length = counts.length := by
  by_cases hlone : (usedSymbols counts).length = 1
  · obtain ⟨⟨c, sym⟩, hused⟩ := List.length_eq_one_iff.1 hlone
    rw [usedSymbols] at hused
    unfold codeLengths
    simp only [hused, List.length_map, List.length_range]
  · rw [codeLengths_eq limit hlone, List.length_map, List.length_range]

/-- A block of literals takes a codeword for each byte and one for the end, after its header. -/
theorem size_ownBlock_literals_le {bytes : List UInt8} {lengths : List Nat}
    (hlengths : codeLengths maxCodeLength
      (countSymbols 286 (endOfBlock :: bytes.map (·.toNat))) = lengths) :
    (ownBlock (bytes.map .literal)).size ≤
      ((bytes.map fun b => lengths.getD b.toNat 0).sum + lengths.getD endOfBlock 0 + 4505) / 8 := by
  have hsymbols : ((bytes.map Token.literal).map (·.coded)).map (·.1.symbol) =
      bytes.map (·.toNat) := by
    simp only [List.map_map]
    rfl
  have hdistances : (((bytes.map Token.literal).map (·.coded)).filterMap
      fun c => c.2.map (·.symbol)) = [] := by
    rw [List.filterMap_eq_nil_iff]
    intro c hc
    obtain ⟨t, ht, rfl⟩ := List.mem_map.1 hc
    obtain ⟨b, -, rfl⟩ := List.mem_map.1 ht
    rfl
  have hcount : lengths.length = 286 := by
    rw [← hlengths, length_codeLengths, length_countSymbols]
  have hfirst := length_trimZeros_le 257 lengths
  have hsecond : (trimZeros 1 (codeLengths maxCodeLength (countSymbols 30 []))).length ≤ 30 := by
    have hle := length_trimZeros_le 1 (codeLengths maxCodeLength (countSymbols 30 []))
    rwa [length_codeLengths, length_countSymbols] at hle
  unfold ownBlock
  simp only [hsymbols, hlengths, hdistances]
  generalize trimZeros 1 (codeLengths maxCodeLength (countSymbols 30 [])) = distances at hsecond ⊢
  have hheader := width_codesHeader_le (trimZeros 257 lengths) distances
  have hbody := width_bodyFields_literals (trimZeros 257 lengths) distances bytes
  simp only [getD_trimZeros] at hbody
  rw [size_packBits]
  simp only [List.cons_append, List.map_cons, List.sum_cons, List.map_append, List.sum_append, hbody]
  omega

theorem size_ownBlock_run_le {n : Nat} (hn : 0 < n) (b : UInt8) :
    (ownBlock ((List.replicate n b).map .literal)).size ≤ (n + 4506) / 8 := by
  have hb : b.toNat < 256 := b.toNat_lt
  have hlengths := codeLengths_run hn b
  rw [← List.map_replicate] at hlengths
  have hsize := size_ownBlock_literals_le hlengths
  have hbyte : ((List.range 286).map ([b.toNat, endOfBlock].count ·)).getD b.toNat 0 = 1 := by
    have hne : endOfBlock ≠ b.toNat := Nat.ne_of_gt hb
    simp [List.getD_eq_getElem?_getD, show b.toNat < 286 by omega, hne]
  have hend : ((List.range 286).map ([b.toNat, endOfBlock].count ·)).getD endOfBlock 0 = 1 := by
    have hne : b.toNat ≠ endOfBlock := Nat.ne_of_lt hb
    simp [List.getD_eq_getElem?_getD, show endOfBlock < 286 by decide, hne]
  simp only [List.map_replicate, hbyte, hend, List.sum_replicate_nat] at hsize ⊢
  omega

theorem size_shorter_le (a b : ByteArray) : (shorter a b).size ≤ b.size := by
  rw [shorter]
  split <;> omega

theorem size_deflate_run_le {level n : Nat} (hlevel : level ≠ 0) (hn : 0 < n) {b : UInt8}
    {data : ByteArray} (hdata : data.data.toList = List.replicate n b) :
    (deflate level data).size ≤ (n + 4506) / 8 := by
  have hliterals : literalsOf data = (List.replicate n b).map .literal := by
    rw [literalsOf, hdata]
  rw [deflate, if_neg hlevel, hliterals]
  exact Nat.le_trans (size_shorter_le _ _)
    (Nat.le_trans (size_shorter_le _ _) (size_ownBlock_run_le hn b))

theorem length_littleEndian : ∀ width n : Nat, (littleEndian width n).length = width
  | 0, _ => rfl
  | width + 1, n => by rw [littleEndian, List.length_cons, length_littleEndian width]

theorem size_frame (level : Nat) (data deflated : ByteArray) :
    (frame level data deflated).size = headerSize + deflated.size + trailerSize := by
  have htrailer : (ByteArray.mk (littleEndian 4 (crc32 data).toNat ++
      littleEndian 4 data.size).toArray).size = 8 := by
    change (littleEndian 4 (crc32 data).toNat ++ littleEndian 4 data.size).length = 8
    rw [List.length_append, length_littleEndian, length_littleEndian]
  rw [frame, ByteArray.size_append, ByteArray.size_append, htrailer]
  rfl

theorem size_compress_run_le {level n : Nat} (hlevel : level ≠ 0) (hn : 0 < n) {b : UInt8}
    {data : ByteArray} (hdata : data.data.toList = List.replicate n b) :
    (compress level data).size ≤ 18 + (n + 4506) / 8 := by
  have hdeflated := size_deflate_run_le hlevel hn hdata
  rw [compress, size_frame, headerSize, trailerSize]
  omega

end SealedText.Gzip
