import SealedText.Proofs.BlockHeaders
import SealedText.Proofs.CopyTokens
import SealedText.Proofs.InflateRuns

/-!
# Coded blocks read back

The row of a table for a length or a distance has enough extra bits for it (`exists_row`). So the
symbols of a token are read as that token (`readCoded_token`), and the symbols of a block put out
what its tokens stand for (`inflating_body`).
-/

namespace SealedText.Gzip

variable {data : ByteArray} {pos : Nat}

/-! ## Rows -/

/-- Each row of a table has extra bits for all numbers in front of the next row, and the last row
for those up to a bound. -/
def Gapless (most : Nat) (rows : List (Nat × Nat)) : Prop :=
  List.IsChain (fun r next => r.1 ≤ next.1 ∧ next.1 ≤ r.1 + 2 ^ r.2) (rows ++ [(most + 1, 0)])

theorem foldl_count (n : Nat) : ∀ (rows : List (Nat × Nat)) (count : Nat),
    rows.foldl (fun count r => if r.1 ≤ n then count + 1 else count) count =
      count + rows.countP (·.1 ≤ n)
  | [], _ => rfl
  | r :: rows, count => by
    rw [List.foldl_cons, foldl_count n rows, List.countP_cons]
    simp only [decide_eq_true_eq]
    split_ifs
    · omega
    · rfl

section Rows

variable {most n : Nat}

theorem Gapless.countP_eq_zero : ∀ {rows : List (Nat × Nat)} {r : Nat × Nat},
    Gapless most (r :: rows) → n < r.1 → (r :: rows).countP (·.1 ≤ n) = 0
  | [], r, _, hn => by simp [hn]
  | next :: rows, r, h, hn => by
    obtain ⟨hnext, hrest⟩ := List.isChain_cons_cons.1 h
    rw [List.countP_cons, countP_eq_zero hrest (Nat.lt_of_lt_of_le hn hnext.1)]
    simp [hn]

theorem Gapless.exists_last : ∀ {rows : List (Nat × Nat)} {r : Nat × Nat},
    Gapless most (r :: rows) → r.1 ≤ n → n ≤ most →
      ∃ base extra, (r :: rows)[(r :: rows).countP (·.1 ≤ n) - 1]? = some (base, extra) ∧
        base ≤ n ∧ n - base < 2 ^ extra
  | [], r, h, hn, hmost => by
    obtain ⟨hnext, -⟩ := List.isChain_cons_cons.1 h
    exact ⟨r.1, r.2, by simp [hn], hn, by simp only [] at hnext; omega⟩
  | next :: rows, r, h, hn, hmost => by
    obtain ⟨hnext, hrest⟩ := List.isChain_cons_cons.1 h
    rw [List.countP_cons_of_pos (by simpa using hn), Nat.add_sub_cancel]
    rcases Nat.lt_or_ge n next.1 with hlt | hge
    · rw [countP_eq_zero hrest hlt]
      exact ⟨r.1, r.2, rfl, hn, by omega⟩
    · obtain ⟨base, extra, hget, hbase⟩ := exists_last hrest hge hmost
      have hpos : 0 < (next :: rows).countP (·.1 ≤ n) :=
        List.countP_pos_iff.2 ⟨next, List.mem_cons_self, by simpa using hge⟩
      obtain ⟨count, hcount⟩ := Nat.exists_eq_succ_of_ne_zero (Nat.ne_of_gt hpos)
      rw [hcount, Nat.succ_sub_one] at hget
      rw [hcount]
      exact ⟨base, extra, hget, hbase⟩

/-- The row of a number, with the extra bits that it needs there. -/
theorem exists_row {table : Array (Nat × Nat)} {r : Nat × Nat} {rows : List (Nat × Nat)}
    (htable : table.toList = r :: rows) (h : Gapless most (r :: rows)) (hn : r.1 ≤ n)
    (hmost : n ≤ most) : ∃ row base extra, rowOf table n = (row, ⟨n - base, extra⟩) ∧
      table[row]? = some (base, extra) ∧ base ≤ n ∧ n - base < 2 ^ extra := by
  obtain ⟨base, extra, hget, hbase⟩ := h.exists_last hn hmost
  have hcount : table.foldl (fun count r => if r.1 ≤ n then count + 1 else count) 0 =
      (r :: rows).countP (·.1 ≤ n) := by
    rw [← Array.foldl_toList, htable, foldl_count, Nat.zero_add]
  rw [← hcount, ← htable, Array.getElem?_toList] at hget
  refine ⟨_, base, extra, ?_, hget, hbase⟩
  unfold rowOf
  simp only [Array.getD_eq_getD_getElem?, hget, Option.getD_some]

end Rows

theorem row_copyLengths {length : Nat} (hleast : minCopy ≤ length) (hmost : length ≤ maxCopy) :
    ∃ row base extra, rowOf copyLengths length = (row, ⟨length - base, extra⟩) ∧
      copyLengths[row]? = some (base, extra) ∧ base ≤ length ∧ length - base < 2 ^ extra :=
  exists_row rfl (by unfold Gapless; decide) hleast hmost

theorem row_copyDistances {distance : Nat} (hpos : 0 < distance) (hmost : distance ≤ maxDistance) :
    ∃ row base extra, rowOf copyDistances distance = (row, ⟨distance - base, extra⟩) ∧
      copyDistances[row]? = some (base, extra) ∧ base ≤ distance ∧ distance - base < 2 ^ extra :=
  exists_row rfl (by unfold Gapless; decide) hpos hmost

/-! ## Tokens -/

namespace Token

variable {symbolLengths distanceLengths : List Nat} {t : Token}

/-- The bits of a token under two codes. -/
def bits (symbolLengths distanceLengths : List Nat) (t : Token) : List Bool :=
  t.coded.1.bits symbolLengths ++ t.coded.2.elim [] (·.bits distanceLengths)

/-- Two codes have words for the symbols of a token. -/
structure Worded (symbolLengths distanceLengths : List Nat) (t : Token) : Prop where
  symbol : symbolLengths.getD t.coded.1.symbol 0 ≠ 0
  distance : ∀ c ∈ t.coded.2, distanceLengths.getD c.symbol 0 ≠ 0

/-- The symbols of a token are symbols of the two codes, and their extra bits are enough. -/
theorem InRange.coded (h : t.InRange) : t.coded.1.symbol < 286 ∧ t.coded.1.extra.Fits ∧
    ∀ c ∈ t.coded.2, c.symbol < 30 ∧ c.extra.Fits := by
  cases t with
  | literal b =>
    exact ⟨Nat.lt_trans b.toNat_lt (by decide), fits_noExtra, fun c hc => by cases hc⟩
  | copy length distance =>
    obtain ⟨hleast, hmost, hpos, hfar⟩ := h
    obtain ⟨row, base, extra, hrow, hget, -, hfits⟩ := row_copyLengths hleast hmost
    obtain ⟨row₁, base₁, extra₁, hrow₁, hget₁, -, hfits₁⟩ := row_copyDistances hpos hfar
    have hlt : row < 29 := (Array.getElem?_eq_some_iff.1 hget).1
    have hlt₁ : row₁ < 30 := (Array.getElem?_eq_some_iff.1 hget₁).1
    simp only [Token.coded, hrow, hrow₁, Option.mem_some_iff, forall_eq']
    exact ⟨by omega, hfits, hlt₁, hfits₁⟩

end Token

section Reading

variable {symbolLengths distanceLengths : List Nat} {s : InflateState}

/-- A symbol of a literal or of a copy, with all that belongs to it, is read as that token. -/
theorem readCoded_token (hsymbols : IsCode symbolLengths) (hdistances : IsCode distanceLengths)
    {t : Token} (hrange : t.InRange) (hworded : t.Worded symbolLengths distanceLengths)
    (h : Carries data s.pos (t.bits symbolLengths distanceLengths)) :
    readCoded data (.ofLengths symbolLengths) (.ofLengths distanceLengths) s =
      .ok { s with
        pos := s.pos + (t.bits symbolLengths distanceLengths).length
        out := t.write s.out } := by
  obtain ⟨hfirst, hsecond⟩ := carries_append.1 h
  obtain ⟨next, hsymbol, hextra, hnext⟩ := readSymbol_of_coded hsymbols hworded.symbol hfirst
  have hlength : (t.bits symbolLengths distanceLengths).length = _ := List.length_append
  rw [← hnext] at hsecond
  rw [hlength, ← Nat.add_assoc, ← hnext]
  unfold readCoded
  cases t with
  | literal b =>
    have hb : b.toNat < 256 := b.toNat_lt
    have hread : readSymbol data (.ofLengths symbolLengths) s.pos = .ok (b.toNat, next) := hsymbol
    simp only [hread, ok_bind, if_pos hb, UInt8.ofNat_toNat]
    rfl
  | copy length distance =>
    obtain ⟨hleast, hmost, hpos, hfar⟩ := hrange
    obtain ⟨row, base, extra, hrow, hget, hbase, hfits⟩ := row_copyLengths hleast hmost
    obtain ⟨row₁, base₁, extra₁, hrow₁, hget₁, hbase₁, hfits₁⟩ := row_copyDistances hpos hfar
    have hdistance := hworded.distance
    simp only [Token.coded, hrow, hrow₁, Option.mem_some_iff, forall_eq', Option.elim_some]
      at hsymbol hextra hsecond hdistance ⊢
    obtain ⟨next₁, hsymbol₁, hextra₁, hnext₁⟩ :=
      readSymbol_of_coded hdistances hdistance hsecond
    have hmore := readBits_of_carries hextra hfits (extra_copyLengths_le hget)
    have hmore₁ := readBits_of_carries hextra₁ hfits₁ (extra_copyDistances_le hget₁)
    have hcopy : ¬ 257 + row < 256 := by omega
    have hopen : ¬ 257 + row = 256 := by omega
    simp only [] at hmore hmore₁ hsymbol₁ hnext₁
    simp only [hsymbol, ok_bind, if_neg hcopy, if_neg hopen, Nat.add_sub_cancel_left, hget, hmore,
      hsymbol₁, hget₁, hmore₁, Nat.add_sub_cancel' hbase, Nat.add_sub_cancel' hbase₁, ← hnext₁]
    rfl

theorem step_coded {symbols distances : CodeTree} (hmode : s.mode = .coded symbols distances) :
    step data s = readCoded data symbols distances s := by
  simp only [step, hmode]

theorem step_endOfBlock {distances : CodeTree}
    (hmode : s.mode = .coded (.ofLengths symbolLengths) distances) (hsymbols : IsCode symbolLengths)
    (hend : symbolLengths.getD endOfBlock 0 ≠ 0)
    (h : Carries data s.pos ((codeFields symbolLengths).getD endOfBlock noExtra).bits) :
    step data s = .ok { s with
      pos := s.pos + symbolLengths.getD endOfBlock 0
      mode := modeAfterBlock s.last } := by
  rw [step_coded hmode, readCoded, readSymbol_of_carries hsymbols hend h, ok_bind]
  rfl

theorem inflating_tokens (hsymbols : IsCode symbolLengths) (hdistances : IsCode distanceLengths) :
    ∀ {tokens : List Token} {s : InflateState},
      (∀ t ∈ tokens, t.InRange ∧ t.Worded symbolLengths distanceLengths) →
      s.mode = .coded (.ofLengths symbolLengths) (.ofLengths distanceLengths) →
      Carries data s.pos (tokens.flatMap (·.bits symbolLengths distanceLengths)) →
        Inflating data s { s with
          pos := s.pos + (tokens.flatMap (·.bits symbolLengths distanceLengths)).length
          out := tokens.foldl Token.write s.out }
  | [], s, _, _, _ => .refl s
  | t :: tokens, s, hall, hmode, h => by
    obtain ⟨⟨hrange, hworded⟩, htokens⟩ := List.forall_mem_cons.1 hall
    rw [List.flatMap_cons] at h ⊢
    obtain ⟨hfirst, hrest⟩ := carries_append.1 h
    have hstep : step data s = .ok { s with
        pos := s.pos + (t.bits symbolLengths distanceLengths).length
        out := t.write s.out } :=
      (step_coded hmode).trans (readCoded_token hsymbols hdistances hrange hworded hfirst)
    rw [List.length_append, ← Nat.add_assoc]
    exact .piece hstep (inflating_tokens hsymbols hdistances htokens hmode hrest)

/-- Two codes have words for all symbols of some tokens and for the end of their block. -/
structure Serves (symbolLengths distanceLengths : List Nat) (tokens : List Token) : Prop where
  symbols : IsCode symbolLengths
  distances : IsCode distanceLengths
  ends : symbolLengths.getD endOfBlock 0 ≠ 0
  worded : ∀ t ∈ tokens, t.Worded symbolLengths distanceLengths

variable {tokens : List Token}

theorem flatMap_bodyFields (symbolLengths distanceLengths : List Nat) (tokens : List Token) :
    (bodyFields symbolLengths distanceLengths (tokens.map (·.coded))).flatMap Field.bits =
      tokens.flatMap (·.bits symbolLengths distanceLengths) ++
        ((codeFields symbolLengths).getD endOfBlock noExtra).bits := by
  have hbits : ∀ t : Token, (t.coded.1.fields (codeFields symbolLengths) ++
      t.coded.2.elim [] (·.fields (codeFields distanceLengths))).flatMap Field.bits =
        t.bits symbolLengths distanceLengths := by
    intro t
    rw [List.flatMap_append, flatMap_fields, Token.bits]
    cases t.coded.2 with
    | none => rfl
    | some c => rw [Option.elim_some, flatMap_fields, Option.elim_some]
  unfold bodyFields
  simp only [List.flatMap_append, List.flatMap_assoc, List.flatMap_map, hbits,
    List.flatMap_singleton]

theorem fits_bodyFields (h : Serves symbolLengths distanceLengths tokens)
    (hrange : ∀ t ∈ tokens, t.InRange) :
    ∀ f ∈ bodyFields symbolLengths distanceLengths (tokens.map (·.coded)), f.Fits := by
  intro f hf
  rcases List.mem_append.1 hf with hf | hf
  · obtain ⟨c, hc, hf⟩ := List.mem_flatMap.1 hf
    obtain ⟨t, ht, rfl⟩ := List.mem_map.1 hc
    obtain ⟨-, hfits, hmore⟩ := (hrange t ht).coded
    rcases List.mem_append.1 hf with hf | hf
    · exact fits_fields h.symbols hfits f hf
    · cases hdistance : t.coded.2 with
      | none =>
        rw [hdistance] at hf
        cases hf
      | some c =>
        rw [hdistance] at hf
        exact fits_fields h.distances (hmore c hdistance).2 f hf
  · rw [List.mem_singleton.1 hf]
    exact fits_codeFields h.symbols.short endOfBlock

/-- The symbols of a block put out what its tokens stand for. -/
theorem inflating_body (hserves : Serves symbolLengths distanceLengths tokens)
    (hrange : ∀ t ∈ tokens, t.InRange)
    (hmode : s.mode = .coded (.ofLengths symbolLengths) (.ofLengths distanceLengths))
    (h : Carries data s.pos
      ((bodyFields symbolLengths distanceLengths (tokens.map (·.coded))).flatMap Field.bits)) :
    Inflating data s ⟨s.pos + ((bodyFields symbolLengths distanceLengths
        (tokens.map (·.coded))).map Field.width).sum,
      tokens.foldl Token.write s.out, modeAfterBlock s.last, s.last⟩ := by
  rw [← length_flatMap_bits]
  rw [flatMap_bodyFields] at h ⊢
  obtain ⟨htokens, hend⟩ := carries_append.1 h
  have hfirst := inflating_tokens hserves.symbols hserves.distances
    (fun t ht => ⟨hrange t ht, hserves.worded t ht⟩) hmode htokens
  rw [List.length_append, Field.length_bits, width_codeFields, ← Nat.add_assoc]
  exact hfirst.trans (.piece (step_endOfBlock hmode hserves.symbols hserves.ends hend) (.refl _))

end Reading

end SealedText.Gzip
