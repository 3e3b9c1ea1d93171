import SealedText.Proofs.PrefixCodes

/-!
# Optimal lengths leave no room

The lightest items of a round are the lightest single ones and the packages made of the lightest
items of the round before (`take_merge`). A single item that is not among them is heavier than those
packages, so it is in none of them (`exists_round`). So each round takes away half of what the round
before left, and the words of two symbols or more take up all numbers (`space_codeLengths`).
-/

namespace SealedText.Gzip

/-! ## The lightest items -/

/-- The lightest items of two lists are the lightest of each, and those taken from the second list
are lighter than all that are left of the first. -/
theorem take_merge : ∀ {as : List Package}, as.Pairwise (·.weight ≤ ·.weight) →
    ∀ (bs : List Package) (m : Nat), m ≤ as.length + bs.length →
      ∃ i j, i ≤ as.length ∧ j ≤ bs.length ∧ i + j = m ∧
        ((as.merge bs lighter).take m).Perm (as.take i ++ bs.take j) ∧
        ∀ b ∈ bs.take j, ∀ a ∈ as.drop i, b.weight < a.weight
  | _, _, _, 0, _ => ⟨0, 0, Nat.zero_le _, Nat.zero_le _, rfl, by simp, by simp⟩
  | [], _, bs, m + 1, hm => by
    refine ⟨0, m + 1, Nat.zero_le _, by simpa using hm, Nat.zero_add _, by simp, by simp⟩
  | a :: as, _, [], m + 1, hm => by
    refine ⟨m + 1, 0, by simpa using hm, Nat.zero_le _, rfl, by simp, by simp⟩
  | a :: as, hsorted, b :: bs, m + 1, hm => by
    obtain ⟨ha, has⟩ := List.pairwise_cons.1 hsorted
    simp only [List.length_cons] at hm
    rw [List.cons_merge_cons]
    split_ifs with hle
    · obtain ⟨i, j, hi, hj, hsum, hperm, hless⟩ := take_merge has (b :: bs) m (by
        simp only [List.length_cons]
        omega)
      exact ⟨i + 1, j, Nat.succ_le_succ hi, hj, by omega, hperm.cons a, hless⟩
    · obtain ⟨i, j, hi, hj, hsum, hperm, hless⟩ := take_merge hsorted bs m (by
        simp only [List.length_cons]
        omega)
      refine ⟨i, j + 1, hi, Nat.succ_le_succ hj, by omega, ?_, ?_⟩
      · exact (hperm.cons b).trans List.perm_middle.symm
      · rw [List.take_succ_cons]
        refine List.forall_mem_cons.2 ⟨fun x hx => ?_, hless⟩
        have hhead : b.weight < a.weight := by simpa [lighter] using hle
        rcases List.mem_cons.1 (List.mem_of_mem_drop hx) with rfl | hx
        · exact hhead
        · exact Nat.lt_of_lt_of_le hhead (ha x hx)

theorem take_pairUp : ∀ (packages : List Package) (n : Nat),
    (pairUp packages).take n = pairUp (packages.take (2 * n))
  | [], n => by simp [pairUp]
  | [p], 0 => by simp [pairUp]
  | [p], n + 1 => by simp [pairUp, Nat.mul_succ]
  | p :: q :: rest, 0 => by simp [pairUp]
  | p :: q :: rest, n + 1 => by
    rw [Nat.mul_succ, pairUp, List.take_succ_cons, take_pairUp rest n, List.take_succ_cons,
      List.take_succ_cons, pairUp]

theorem length_pairUp : ∀ packages : List Package,
    (pairUp packages).length = packages.length / 2
  | [] => rfl
  | [p] => by simp [pairUp]
  | p :: q :: rest => by
    rw [pairUp, List.length_cons, length_pairUp rest, List.length_cons, List.length_cons]
    omega

/-- Nothing is left out of an even number of packages. -/
theorem occurrences_pairUp (sym : Nat) : ∀ (packages : List Package) (n : Nat),
    packages.length = 2 * n → occurrences (pairUp packages) sym = occurrences packages sym
  | [], _, _ => rfl
  | [p], n, h => by
    simp only [List.length_singleton] at h
    omega
  | p :: q :: rest, n, h => by
    simp only [List.length_cons] at h
    rw [pairUp, occurrences_cons, occurrences_cons, occurrences_cons,
      occurrences_pairUp sym rest (n - 1) (by omega), Package.join, List.count_append,
      Nat.add_assoc]

/-! ## Rounds -/

/-- A symbol as an item. -/
def single (c : Nat × Nat) : Package := ⟨c.1, [c.2]⟩

/-- A package weighs no less than any item that it holds. -/
def Holding (items : List (Nat × Nat)) (p : Package) : Prop :=
  ∀ c ∈ items, c.2 ∈ p.symbols → c.1 ≤ p.weight

section Rounds

variable {items : List (Nat × Nat)}

theorem holding_pairUp : ∀ {packages : List Package}, (∀ p ∈ packages, Holding items p) →
    ∀ p ∈ pairUp packages, Holding items p
  | [], _ => by simp [pairUp]
  | [p], _ => by simp [pairUp]
  | p :: q :: rest, h => by
    obtain ⟨hp, h⟩ := List.forall_mem_cons.1 h
    obtain ⟨hq, h⟩ := List.forall_mem_cons.1 h
    rw [pairUp]
    refine List.forall_mem_cons.2 ⟨fun c hc hsym => ?_, holding_pairUp h⟩
    rw [Package.join] at hsym ⊢
    rcases List.mem_append.1 hsym with hsym | hsym
    · exact Nat.le_trans (hp c hc hsym) (Nat.le_add_right ..)
    · exact Nat.le_trans (hq c hc hsym) (Nat.le_add_left ..)

theorem holding_single (hnodup : (items.map (·.2)).Nodup) :
    ∀ p ∈ items.map single, Holding items p := by
  intro p hp c hc hsym
  obtain ⟨d, hd, rfl⟩ := List.mem_map.1 hp
  rw [single, List.mem_singleton] at hsym
  rw [List.inj_on_of_nodup_map hnodup hc hd hsym]
  exact Nat.le_refl _

theorem holding_mergeRounds (hnodup : (items.map (·.2)).Nodup) : ∀ rounds : Nat,
    ∀ p ∈ mergeRounds (items.map single) rounds, Holding items p
  | 0 => holding_single hnodup
  | rounds + 1 => by
    intro p hp
    rw [mergeRounds, List.mem_merge] at hp
    rcases hp with hp | hp
    · exact holding_single hnodup p hp
    · exact holding_pairUp (holding_mergeRounds hnodup rounds) p hp

theorem occurrences_single (some : List (Nat × Nat)) (sym : Nat) :
    occurrences (some.map single) sym = (some.map (·.2)).count sym := by
  rw [occurrences, List.flatMap_map, List.map_eq_flatMap]
  rfl

theorem occurrences_append (ps qs : List Package) (sym : Nat) :
    occurrences (ps ++ qs) sym = occurrences ps sym + occurrences qs sym := by
  rw [occurrences, List.flatMap_append, List.count_append, occurrences, occurrences]

/-- Of the first items each has its symbol once, the others none of theirs. -/
theorem count_take (hnodup : (items.map (·.2)).Nodup) (i : Nat) :
    (∀ c ∈ items.take i, ((items.take i).map (·.2)).count c.2 = 1) ∧
      ∀ c ∈ items.drop i, ((items.take i).map (·.2)).count c.2 = 0 := by
  rw [← List.take_append_drop i items, List.map_append, List.nodup_append] at hnodup
  obtain ⟨hfirst, -, hapart⟩ := hnodup
  refine ⟨fun c hc => ?_, fun c hc => ?_⟩
  · exact List.count_eq_one_of_mem hfirst (List.mem_map_of_mem hc)
  · exact List.count_eq_zero.2 fun hmem => hapart _ hmem _ (List.mem_map_of_mem hc) rfl

/-- Half of the numbers go to each of the first items, and what the others take is unchanged. -/
theorem sum_split (i room : Nat) {f : Nat × Nat → Nat} (g : Nat × Nat → Nat)
    (hfirst : ∀ c ∈ items.take i, f c = g c) (hothers : ∀ c ∈ items.drop i, f c = g c + room) :
    (items.map f).sum = (items.map g).sum + (items.length - i) * room := by
  have hdrop : ((items.drop i).map f).sum =
      ((items.drop i).map g).sum + (items.drop i).length * room := by
    rw [List.map_congr_left hothers, List.sum_map_add, List.map_const', List.sum_replicate_nat]
  rw [← List.take_append_drop i items, List.map_append, List.sum_append, List.map_append,
    List.sum_append, List.map_congr_left hfirst, hdrop, List.take_append_drop, List.length_drop,
    Nat.add_assoc]

/-- The lightest items of a round are made of some single ones and the lightest of the round before,
which hold no others. -/
theorem exists_round (hsorted : items.Pairwise (·.1 ≤ ·.1)) (hnodup : (items.map (·.2)).Nodup)
    (rounds : Nat) {m : Nat} (hm : m ≤ (mergeRounds (items.map single) (rounds + 1)).length) :
    ∃ i j, i ≤ items.length ∧ 2 * j ≤ (mergeRounds (items.map single) rounds).length ∧ i + j = m ∧
      (∀ sym, occurrences ((mergeRounds (items.map single) (rounds + 1)).take m) sym =
        ((items.take i).map (·.2)).count sym +
          occurrences ((mergeRounds (items.map single) rounds).take (2 * j)) sym) ∧
      ∀ c ∈ items.drop i,
        occurrences ((mergeRounds (items.map single) rounds).take (2 * j)) c.2 = 0 := by
  rw [mergeRounds, List.length_merge] at hm
  obtain ⟨i, j, hi, hj, hsum, hperm, hless⟩ :=
    take_merge (hsorted.map single fun a b h => h) _ m hm
  rw [List.length_map] at hi
  rw [length_pairUp] at hj
  have hpairs : ∀ sym, occurrences ((pairUp (mergeRounds (items.map single) rounds)).take j) sym =
      occurrences ((mergeRounds (items.map single) rounds).take (2 * j)) sym := fun sym => by
    rw [take_pairUp, occurrences_pairUp sym _ j (List.length_take_of_le (by omega))]
  refine ⟨i, j, hi, by omega, hsum, fun sym => ?_, fun c hc => ?_⟩
  · rw [mergeRounds, occurrences_of_perm hperm, occurrences_append, ← List.map_take,
      occurrences_single, hpairs]
  · rw [← hpairs, occurrences, List.count_eq_zero]
    intro hmem
    obtain ⟨p, hp, hsym⟩ := List.mem_flatMap.1 hmem
    have hweight := hless p hp (single c) (by
      rw [← List.map_drop]
      exact List.mem_map_of_mem hc)
    have hholding := holding_pairUp (holding_mergeRounds hnodup rounds) p
      (List.mem_of_mem_take hp) c (List.mem_of_mem_drop hc) hsym
    exact absurd hholding (Nat.not_le.2 hweight)

/-- What the words leave after some rounds, when the lightest packages are taken. -/
theorem sum_mergeRounds (hsorted : items.Pairwise (·.1 ≤ ·.1))
    (hnodup : (items.map (·.2)).Nodup) : ∀ (rounds m : Nat),
    m ≤ (mergeRounds (items.map single) rounds).length →
      (items.map fun c => 2 ^ (rounds + 1 -
        occurrences ((mergeRounds (items.map single) rounds).take m) c.2)).sum + m * 2 ^ rounds =
          items.length * 2 ^ (rounds + 1)
  | 0, m, hm => by
    rw [mergeRounds, List.length_map] at hm
    obtain ⟨hfirst, hothers⟩ := count_take hnodup m
    rw [mergeRounds, sum_split m 1 (fun _ => 1) (fun c hc => ?_) fun c hc => ?_, List.map_const',
      List.sum_replicate_nat]
    · omega
    · rw [← List.map_take, occurrences_single, hfirst c hc]
      rfl
    · rw [← List.map_take, occurrences_single, hothers c hc]
      rfl
  | rounds + 1, m, hm => by
    obtain ⟨i, j, hi, hj, rfl, hocc, hnone⟩ := exists_round hsorted hnodup rounds hm
    have ih := sum_mergeRounds hsorted hnodup rounds (2 * j) hj
    obtain ⟨hfirst, hothers⟩ := count_take hnodup i
    have hleft : (items.length - i) * 2 ^ (rounds + 1) + i * 2 ^ (rounds + 1) =
        items.length * 2 ^ (rounds + 1) := by
      rw [← Nat.add_mul, Nat.sub_add_cancel hi]
    have hpow : 2 * j * 2 ^ rounds = j * 2 ^ (rounds + 1) := by
      rw [Nat.pow_succ]
      ring
    rw [sum_split i (2 ^ (rounds + 1)) (fun c => 2 ^ (rounds + 1 -
      occurrences ((mergeRounds (items.map single) rounds).take (2 * j)) c.2)) (fun c hc => ?_)
      fun c hc => ?_]
    · rw [Nat.add_mul, Nat.pow_succ 2 (rounds + 1), ← Nat.mul_assoc]
      omega
    · rw [hocc, hfirst c hc]
      congr 1
      omega
    · rw [hocc, hothers c hc, hnone c hc, Nat.add_zero, Nat.sub_zero, Nat.sub_zero, Nat.pow_succ]
      omega

end Rounds

/-! ## Lengths of codewords -/

section Lengths

variable {limit : Nat} {counts : List Nat}

theorem exists_sorted (counts : List Nat) : ∃ items : List (Nat × Nat),
    singlesOf counts = items.map single ∧ items.Perm (usedSymbols counts) ∧
      items.Pairwise (·.1 ≤ ·.1) ∧ (items.map (·.2)).Nodup := by
  refine ⟨(usedSymbols counts).mergeSort fun a b => a.1 ≤ b.1, ?_, List.mergeSort_perm _ _, ?_, ?_⟩
  · exact (List.map_mergeSort (f := single) (s := lighter) fun a _ b _ => rfl).symm
  · have hsorted := List.pairwise_mergeSort
      (fun a b c (hab : decide (a.1 ≤ b.1) = true) (hbc : decide (b.1 ≤ c.1) = true) =>
        decide_eq_true (Nat.le_trans (of_decide_eq_true hab) (of_decide_eq_true hbc)))
      (fun a b => by simpa using Nat.le_total a.1 b.1) (usedSymbols counts)
    exact hsorted.imp of_decide_eq_true
  · exact ((List.mergeSort_perm _ _).map _).nodup_iff.2 (nodup_usedSymbols counts)

/-- How far the items of a round are from twice the single ones. -/
theorem two_mul_le_length (items : List Package) : ∀ (rounds far : Nat),
    items.length ≤ far * 2 ^ rounds → 2 * items.length ≤ (mergeRounds items rounds).length + far
  | 0, far, h => by
    rw [mergeRounds]
    omega
  | rounds + 1, far, h => by
    rw [Nat.pow_succ, Nat.mul_comm (2 ^ rounds), ← Nat.mul_assoc] at h
    have ih := two_mul_le_length items rounds (far * 2) h
    rw [mergeRounds, List.length_merge, length_pairUp]
    omega

/-- The number of items among the lightest that hold a symbol, if there are two symbols or more. -/
def depth (limit : Nat) (counts : List Nat) : Nat → Nat :=
  occurrences ((mergeRounds (singlesOf counts) (limit - 1)).take
    (2 * ((singlesOf counts).length - 1)))

theorem depth_le (limit : Nat) (counts : List Nat) (sym : Nat) :
    depth limit counts sym ≤ (limit - 1 + 1) * occurrences (singlesOf counts) sym :=
  Nat.le_trans (occurrences_take_le _ _ _) (occurrences_mergeRounds_le _ _ _)

theorem sum_depth (hlimit : 0 < limit) (hmore : 2 ≤ (usedSymbols counts).length)
    (hfit : (usedSymbols counts).length ≤ 2 ^ limit) :
    ((usedSymbols counts).map fun c => 2 ^ (limit - depth limit counts c.2)).sum = 2 ^ limit := by
  obtain ⟨items, hsingles, hperm, hsorted, hnodup⟩ := exists_sorted counts
  obtain ⟨rounds, rfl⟩ := Nat.exists_eq_succ_of_ne_zero (Nat.ne_of_gt hlimit)
  have hlength := hperm.length_eq
  have hfar := two_mul_le_length (items.map single) rounds 2 (by
    rw [List.length_map, hlength, Nat.mul_comm]
    exact hfit)
  have hsum := sum_mergeRounds hsorted hnodup rounds (2 * (items.length - 1)) (by
    rw [List.length_map] at hfar
    omega)
  have hpow : 2 * (items.length - 1) * 2 ^ rounds = (items.length - 1) * 2 ^ (rounds + 1) := by
    rw [Nat.pow_succ]
    ring
  have hall : items.length * 2 ^ (rounds + 1) =
      (items.length - 1) * 2 ^ (rounds + 1) + 2 ^ (rounds + 1) := by
    rw [← Nat.succ_mul, Nat.succ_eq_add_one, Nat.sub_add_cancel (by omega)]
  rw [← (hperm.map _).sum_nat]
  simp only [depth, hsingles, List.length_map, Nat.succ_eq_add_one, Nat.add_sub_cancel]
  omega

/-- Each of two symbols or more is held by an item, or its word alone would take up all numbers. -/
theorem depth_pos (hlimit : 0 < limit) (hmore : 2 ≤ (usedSymbols counts).length)
    (hfit : (usedSymbols counts).length ≤ 2 ^ limit) {c : Nat × Nat} (hc : c ∈ usedSymbols counts) :
    0 < depth limit counts c.2 := by
  by_contra hzero
  have hsum := sum_depth hlimit hmore hfit
  obtain ⟨before, after, hsplit⟩ := List.append_of_mem hc
  have hlength := congrArg List.length hsplit
  have hone : ∀ some : List (Nat × Nat),
      some.length ≤ (some.map fun c => 2 ^ (limit - depth limit counts c.2)).sum := by
    intro some
    have hle := List.length_le_sum_of_one_le
      (some.map fun c => 2 ^ (limit - depth limit counts c.2)) (List.forall_mem_map.2
        fun _ _ => Nat.one_le_two_pow)
    rwa [List.length_map] at hle
  have hfront := hone before
  have hback := hone after
  rw [List.length_append, List.length_cons] at hlength
  rw [hsplit, List.map_append, List.sum_append, List.map_cons, List.sum_cons,
    Nat.eq_zero_of_not_pos hzero, Nat.sub_zero] at hsum
  omega

theorem mem_usedSymbols {c : Nat × Nat} :
    c ∈ usedSymbols counts ↔ counts.getD c.2 0 = c.1 ∧ c.1 ≠ 0 := by
  obtain ⟨n, sym⟩ := c
  simp only [usedSymbols, List.mem_filter, List.mem_zipIdx_iff_getElem?, decide_eq_true_eq,
    List.getD_eq_getElem?_getD]
  constructor
  · rintro ⟨hget, hne⟩
    exact ⟨by rw [hget]; rfl, hne⟩
  · rintro ⟨hget, hne⟩
    refine ⟨?_, hne⟩
    cases hsome : counts[sym]? with
    | none =>
      rw [hsome] at hget
      exact absurd hget.symm hne
    | some m =>
      rw [hsome] at hget
      exact congrArg some hget

theorem occurrences_singlesOf_eq_zero {sym : Nat} (h : counts.getD sym 0 = 0) :
    occurrences (singlesOf counts) sym = 0 := by
  obtain ⟨items, hsingles, hperm, -, -⟩ := exists_sorted counts
  rw [hsingles, occurrences_single, List.count_eq_zero]
  intro hmem
  obtain ⟨c, hc, rfl⟩ := List.mem_map.1 hmem
  obtain ⟨hget, hne⟩ := mem_usedSymbols.1 (hperm.mem_iff.1 hc)
  exact hne (hget.symm.trans h)

theorem sum_filter {α : Type} (f : α → Nat) (p : α → Bool) : ∀ {as : List α},
    (∀ a ∈ as, p a = false → f a = 0) → ((as.filter p).map f).sum = (as.map f).sum
  | [], _ => rfl
  | a :: as, h => by
    obtain ⟨ha, has⟩ := List.forall_mem_cons.1 h
    rw [List.map_cons, List.sum_cons, ← sum_filter f p has]
    cases hp : p a with
    | true => rw [List.filter_cons_of_pos hp, List.map_cons, List.sum_cons]
    | false => rw [List.filter_cons_of_neg (by simp [hp]), ha hp, Nat.zero_add]

/-- The words of two symbols or more take up all numbers as wide as the limit. -/
theorem space_codeLengths (hlimit : 0 < limit) (hmore : 2 ≤ (usedSymbols counts).length)
    (hfit : (usedSymbols counts).length ≤ 2 ^ limit) :
    space (codeLengths limit counts) limit = 2 ^ limit := by
  have hdepth : ∀ sym, depth limit counts sym ≤ limit := fun sym => by
    have hle := depth_le limit counts sym
    have hone := Nat.mul_le_mul_left (limit - 1 + 1) (occurrences_singlesOf_le counts sym)
    omega
  have hcounts : (List.range counts.length) = counts.zipIdx.map (·.2) := by
    rw [List.zipIdx_map_snd, List.range_eq_range']
  rw [codeLengths_eq limit (by omega), space, List.map_map, hcounts, List.map_map,
    ← sum_filter _ (fun c => decide (c.1 ≠ 0)), ← sum_depth hlimit hmore hfit]
  · refine congrArg List.sum (List.map_congr_left fun c hc => ?_)
    exact if_pos ⟨depth_pos hlimit hmore hfit hc, hdepth c.2⟩
  · intro c hc hzero
    have hget := List.mem_zipIdx_iff_getElem?.1 hc
    have hunused : counts.getD c.2 0 = 0 := by
      rw [List.getD_eq_getElem?_getD, hget]
      simpa using hzero
    have hnone := depth_le limit counts c.2
    rw [occurrences_singlesOf_eq_zero hunused, Nat.mul_zero] at hnone
    exact if_neg fun h => absurd h.1 (Nat.not_lt.2 hnone)

theorem space_eq_mul {lengths : List Nat} {width : Nat} (h : ∀ l ∈ lengths, l ≤ width) :
    ∀ more : Nat, space lengths (width + more) = space lengths width * 2 ^ more
  | 0 => by simp
  | more + 1 => by
    have hnone : lengths.count (width + more + 1) = 0 :=
      List.count_eq_zero.2 fun hmem => absurd (h _ hmem) (by omega)
    rw [← Nat.add_assoc, space_succ, hnone, space_eq_mul h more, Nat.pow_succ]
    ring

theorem short_codeLengths (hlimit : 0 < limit) (hle : limit ≤ maxCodeLength) :
    ∀ l ∈ codeLengths limit counts, l ≤ maxCodeLength :=
  fun l hl => Nat.le_trans (le_of_mem_codeLengths hlimit l hl) hle

theorem isComplete_codeLengths (hlimit : 0 < limit) (hle : limit ≤ maxCodeLength)
    (hmore : 2 ≤ (usedSymbols counts).length) (hfit : (usedSymbols counts).length ≤ 2 ^ limit) :
    isComplete (codeLengths limit counts) = true := by
  obtain ⟨more, hsum⟩ := Nat.exists_eq_add_of_le hle
  rw [isComplete, coverage_eq (short_codeLengths hlimit hle), beq_iff_eq, Nat.one_shiftLeft, hsum,
    space_eq_mul (le_of_mem_codeLengths hlimit), space_codeLengths hlimit hmore hfit, Nat.pow_add]

theorem codeLengths_lone {c : Nat × Nat} (hlone : usedSymbols counts = [c]) :
    codeLengths limit counts =
      (List.range counts.length).map fun i => if i = c.2 then 1 else 0 := by
  rw [usedSymbols] at hlone
  unfold codeLengths
  simp only [hlone]

theorem getD_codeLengths_ne_zero (hlimit : 0 < limit)
    (hfit : (usedSymbols counts).length ≤ 2 ^ limit) {sym : Nat} (h : counts.getD sym 0 ≠ 0) :
    (codeLengths limit counts).getD sym 0 ≠ 0 := by
  have hmem : (counts.getD sym 0, sym) ∈ usedSymbols counts := mem_usedSymbols.2 ⟨rfl, h⟩
  have hsym := lt_length_of_getD_ne_zero h
  by_cases hlone : (usedSymbols counts).length = 1
  · obtain ⟨c, hc⟩ := List.length_eq_one_iff.1 hlone
    rw [hc, List.mem_singleton] at hmem
    rw [codeLengths_lone hc, ← hmem]
    simp [hsym]
  · have hmore : 2 ≤ (usedSymbols counts).length := by
      have hpos := List.length_pos_of_mem hmem
      omega
    have hpos := depth_pos hlimit hmore hfit hmem
    have hget : (codeLengths limit counts).getD sym 0 = depth limit counts sym := by
      rw [codeLengths_eq limit hlone]
      simp [hsym, depth]
    rw [hget]
    exact Nat.ne_of_gt hpos

/-- The code made for some symbols has a word for each of them. -/
theorem getD_codeLengths_of_mem (hlimit : 0 < limit) {size sym : Nat} (hsize : size ≤ 2 ^ limit)
    {symbols : List Nat} (hmem : sym ∈ symbols) (hsym : sym < size) :
    (codeLengths limit (countSymbols size symbols)).getD sym 0 ≠ 0 := by
  refine getD_codeLengths_ne_zero hlimit ?_ (getD_countSymbols_ne_zero hmem hsym)
  have hle := length_usedSymbols_le (countSymbols size symbols)
  rw [length_countSymbols] at hle
  exact Nat.le_trans hle hsize

theorem sum_map_ite (k : Nat) : ∀ ns : List Nat,
    (ns.map fun n => if n = k then 1 else 0).sum = ns.count k
  | [] => rfl
  | n :: ns => by
    rw [List.map_cons, List.sum_cons, sum_map_ite k ns, List.count_cons, Nat.add_comm]
    simp only [beq_iff_eq]

/-- One symbol has a single bit, and more leave no room. -/
theorem isUsable_codeLengths (hlimit : 0 < limit) (hle : limit ≤ maxCodeLength)
    (hfit : counts.length ≤ 2 ^ limit) : isUsable (codeLengths limit counts) = true := by
  have hused := length_usedSymbols_le counts
  rw [isUsable, Bool.or_eq_true, decide_eq_true_eq, ← List.sum_eq_foldl]
  rcases Nat.lt_or_ge (usedSymbols counts).length 2 with hfew | hmore
  · right
    by_cases hlone : (usedSymbols counts).length = 1
    · obtain ⟨c, hc⟩ := List.length_eq_one_iff.1 hlone
      rw [codeLengths_lone hc, sum_map_ite]
      exact List.nodup_iff_count.1 List.nodup_range c.2
    · have hnone : singlesOf counts = [] := by
        rw [singlesOf, List.eq_nil_of_length_eq_zero (by omega : (usedSymbols counts).length = 0)]
        exact List.mergeSort_nil
      have hzero : occurrences [] = fun _ => 0 := rfl
      rw [codeLengths_eq limit hlone, hnone]
      simp [hzero]
  · exact .inl (isComplete_codeLengths hlimit hle hmore (Nat.le_trans hused hfit))

end Lengths

end SealedText.Gzip
