import SealedText.Proofs.CodedBlocks
import SealedText.Proofs.StoredMembers

/-!
# Inflating undoes deflating

The codes made for the tokens of a block have words for all their symbols (`serves_own`), as the
fixed codes do (`serves_fixed`). So whatever form `deflate` takes, it inflates to the data
(`deflated_deflate`), and a member that `compress` makes holds what it was made from
(`holds_compress`).
-/

namespace SealedText.Gzip

variable {data file : ByteArray} {tokens : List Token} {pos : Nat}

/-! ## Codes for tokens -/

theorem fixedSymbolLengths_spec : (∀ l ∈ fixedSymbolLengths, l ≠ 0 ∧ l ≤ maxCodeLength) ∧
    fixedSymbolLengths.length = 288 ∧ isComplete fixedSymbolLengths = true := by
  decide +kernel

theorem fixedDistanceLengths_spec : (∀ l ∈ fixedDistanceLengths, l ≠ 0 ∧ l ≤ maxCodeLength) ∧
    fixedDistanceLengths.length = 32 ∧ isComplete fixedDistanceLengths = true := by
  decide +kernel

theorem getD_ne_zero_of_forall {lengths : List Nat} {sym : Nat}
    (h : ∀ l ∈ lengths, l ≠ 0 ∧ l ≤ maxCodeLength) (hsym : sym < lengths.length) :
    lengths.getD sym 0 ≠ 0 := by
  rw [List.getD_eq_getElem _ _ hsym]
  exact (h _ (List.getElem_mem hsym)).1

theorem serves_fixed (h : ∀ t ∈ tokens, t.InRange) :
    Serves fixedSymbolLengths fixedDistanceLengths tokens := by
  obtain ⟨hall, hlength, hcomplete⟩ := fixedSymbolLengths_spec
  obtain ⟨hall₁, hlength₁, hcomplete₁⟩ := fixedDistanceLengths_spec
  refine ⟨isCode_of_isComplete (fun l hl => (hall l hl).2) hcomplete,
    isCode_of_isComplete (fun l hl => (hall₁ l hl).2) hcomplete₁,
    getD_ne_zero_of_forall hall (by rw [hlength]; decide), fun t ht => ?_⟩
  obtain ⟨hsymbol, -, hdistance⟩ := (h t ht).coded
  refine ⟨getD_ne_zero_of_forall hall (by omega), fun c hc => ?_⟩
  obtain ⟨hlt, -⟩ := hdistance c hc
  exact getD_ne_zero_of_forall hall₁ (by omega)

/-- A header can give the lengths of a code made for some symbols. -/
theorem givable_trimZeros {least size : Nat} (hleast : least ≤ size)
    (hsize : size ≤ 2 ^ maxCodeLength) (symbols : List Nat) : Givable least size
      (trimZeros least (codeLengths maxCodeLength (countSymbols size symbols))) where
  least_le := by
    rw [trimZeros, List.length_append, List.length_replicate]
    omega
  le_most := by
    have hle := length_trimZeros_le least (codeLengths maxCodeLength (countSymbols size symbols))
    rwa [length_codeLengths, length_countSymbols, Nat.max_eq_right hleast] at hle
  short l hl := by
    obtain ⟨i, hi, rfl⟩ := List.mem_iff_getElem.1 hl
    rw [← List.getD_eq_getElem _ 0 hi, getD_trimZeros]
    exact getD_codeLengths_le (by decide) _ i
  usable := by
    rw [isUsable_trimZeros]
    exact isUsable_codeLengths (by decide) (Nat.le_refl _) (by rwa [length_countSymbols])

theorem getD_trimZeros_codeLengths {least size sym : Nat} (hsize : size ≤ 2 ^ maxCodeLength)
    {symbols : List Nat} (hmem : sym ∈ symbols) (hsym : sym < size) :
    (trimZeros least (codeLengths maxCodeLength (countSymbols size symbols))).getD sym 0 ≠ 0 := by
  rw [getD_trimZeros]
  exact getD_codeLengths_of_mem (by decide) hsize hmem hsym

/-- The lengths of the code for the symbols of some tokens and for the end of their block. -/
def ownSymbolLengths (tokens : List Token) : List Nat :=
  trimZeros 257 (codeLengths maxCodeLength
    (countSymbols 286 (endOfBlock :: (tokens.map (·.coded)).map (·.1.symbol))))

def ownDistanceLengths (tokens : List Token) : List Nat :=
  trimZeros 1 (codeLengths maxCodeLength
    (countSymbols 30 ((tokens.map (·.coded)).filterMap fun c => c.2.map (·.symbol))))

theorem givable_ownSymbolLengths (tokens : List Token) :
    Givable 257 286 (ownSymbolLengths tokens) :=
  givable_trimZeros (by decide) (by decide) _

theorem givable_ownDistanceLengths (tokens : List Token) :
    Givable 1 30 (ownDistanceLengths tokens) :=
  givable_trimZeros (by decide) (by decide) _

theorem ownSymbolLengths_endOfBlock (tokens : List Token) :
    (ownSymbolLengths tokens).getD endOfBlock 0 ≠ 0 :=
  getD_trimZeros_codeLengths (by decide) List.mem_cons_self (by decide)

theorem serves_own (h : ∀ t ∈ tokens, t.InRange) :
    Serves (ownSymbolLengths tokens) (ownDistanceLengths tokens) tokens where
  symbols := (givable_ownSymbolLengths tokens).isCode
  distances := (givable_ownDistanceLengths tokens).isCode
  ends := ownSymbolLengths_endOfBlock tokens
  worded t ht := by
    obtain ⟨hsymbol, -, hdistance⟩ := (h t ht).coded
    have hcoded : t.coded ∈ tokens.map (·.coded) := List.mem_map_of_mem ht
    refine ⟨getD_trimZeros_codeLengths (by decide) ?_ hsymbol, fun c hc => ?_⟩
    · exact List.mem_cons_of_mem _ (List.mem_map_of_mem hcoded)
    · refine getD_trimZeros_codeLengths (by decide) ?_ (hdistance c hc).1
      exact List.mem_filterMap.2 ⟨_, hcoded, by rw [hc]; rfl⟩

/-! ## Blocks -/

variable {symbolLengths distanceLengths : List Nat}

/-- Some fields are the header of the last block, which comes with two codes. -/
def Announces (symbolLengths distanceLengths : List Nat) (header : List Field) : Prop :=
  ∀ (file : ByteArray) (pos : Nat), Carries file pos (header.flatMap Field.bits) →
    readHeader file ⟨pos, .empty, .header, false⟩ = .ok ⟨pos + (header.map Field.width).sum, .empty,
      .coded (.ofLengths symbolLengths) (.ofLengths distanceLengths), true⟩

/-- What stands in front of the last block if it is coded. -/
def lastBlock (kind : Nat) : List Field := [⟨1, 1⟩, ⟨kind, 2⟩]

theorem readBits_lastBlock {kind : Nat} (hkind : kind < 4)
    (h : Carries file pos ((lastBlock kind).flatMap Field.bits)) :
    readBits file pos 1 = .ok 1 ∧ readBits file (pos + 1) 2 = .ok kind := by
  obtain ⟨hfirst, hrest⟩ := carries_append.1 h
  obtain ⟨hsecond, -⟩ := carries_append.1 hrest
  exact ⟨readBits_of_carries hfirst (by decide : 1 < 2 ^ 1) (show 1 ≤ 16 by decide),
    readBits_of_carries hsecond hkind (show 2 ≤ 16 by decide)⟩

theorem fits_lastBlock {kind : Nat} (hkind : kind < 4) : ∀ f ∈ lastBlock kind, f.Fits := by
  have hlast : Field.Fits ⟨1, 1⟩ := (by decide : 1 < 2 ^ 1)
  have hcoded : Field.Fits ⟨kind, 2⟩ := hkind
  simp [lastBlock, hlast, hcoded]

theorem announces_fixed :
    Announces fixedSymbolLengths fixedDistanceLengths (lastBlock 1) := by
  intro file pos h
  obtain ⟨hlast, hkind⟩ := readBits_lastBlock (by decide) h
  simp only [readHeader, hlast, hkind, ok_bind]
  rfl

theorem announces_own (tokens : List Token) :
    Announces (ownSymbolLengths tokens) (ownDistanceLengths tokens)
      (lastBlock 2 ++ codesHeader (ownSymbolLengths tokens) (ownDistanceLengths tokens)) := by
  intro file pos h
  rw [List.flatMap_append] at h
  obtain ⟨hfirst, hcodes⟩ := carries_append.1 h
  obtain ⟨hlast, hkind⟩ := readBits_lastBlock (by decide) hfirst
  have hread := readCodes_of_carries (givable_ownSymbolLengths tokens)
    (givable_ownDistanceLengths tokens) (ownSymbolLengths_endOfBlock tokens) hcodes
  have hthree : ((lastBlock 2).flatMap Field.bits).length = 3 := rfl
  rw [hthree] at hread
  simp only [readHeader, hlast, hkind, ok_bind, hread]
  rw [List.map_append, List.sum_append, ← Nat.add_assoc]
  rfl

/-- A coded block inflates to what its tokens stand for. -/
theorem deflated_block {header : List Field} (hfits : ∀ f ∈ header, f.Fits)
    (hheader : Announces symbolLengths distanceLengths header)
    (hserves : Serves symbolLengths distanceLengths tokens)
    (hstand : Stand data tokens data.size) :
    Deflated (packBits (header ++
      bodyFields symbolLengths distanceLengths (tokens.map (·.coded)))) data := by
  intro before after
  have hcarries := (carries_packBits (List.forall_mem_append.2
    ⟨hfits, fits_bodyFields hserves hstand.inRange⟩)).append before after
  rw [List.flatMap_append, Nat.add_zero] at hcarries
  obtain ⟨hfirst, hbody⟩ := carries_append.1 hcarries
  rw [length_flatMap_bits] at hbody
  have hwritten := hstand.write
  rw [ByteArray.extract_zero_size] at hwritten
  have hstep := hheader _ _ hfirst
  have hinflating := inflating_body hserves hstand.inRange (s := ⟨_, .empty, _, true⟩) rfl hbody
  refine ⟨_, .piece hstep hinflating, rfl, hwritten, ?_⟩
  rw [size_packBits, List.map_append, List.sum_append]
  simp only []
  omega

theorem deflated_fixedBlock (hstand : Stand data tokens data.size) :
    Deflated (fixedBlock tokens) data := by
  have hblock : fixedBlock tokens = packBits (lastBlock 1 ++
      bodyFields fixedSymbolLengths fixedDistanceLengths (tokens.map (·.coded))) := rfl
  rw [hblock]
  exact deflated_block (fits_lastBlock (by decide)) announces_fixed (serves_fixed hstand.inRange)
    hstand

theorem deflated_ownBlock (hstand : Stand data tokens data.size) :
    Deflated (ownBlock tokens) data := by
  have hblock : ownBlock tokens = packBits (lastBlock 2 ++
      codesHeader (ownSymbolLengths tokens) (ownDistanceLengths tokens) ++
        bodyFields (ownSymbolLengths tokens) (ownDistanceLengths tokens)
          (tokens.map (·.coded))) := rfl
  have hheader := fits_codesHeader (givable_ownSymbolLengths tokens)
    (givable_ownDistanceLengths tokens) (ownSymbolLengths_endOfBlock tokens)
  rw [hblock]
  exact deflated_block (List.forall_mem_append.2 ⟨fits_lastBlock (by decide), hheader⟩)
    (announces_own tokens) (serves_own hstand.inRange) hstand

theorem deflated_shorter {a b : ByteArray} (ha : Deflated a data) (hb : Deflated b data) :
    Deflated (shorter a b) data := by
  rw [shorter]
  split_ifs
  · exact hb
  · exact ha

/-- Whatever form the data takes, it inflates to the data. -/
theorem deflated_deflate (level : Nat) (data : ByteArray) : Deflated (deflate level data) data := by
  have hstored := deflated_storedBlocks data
  have htokens := stand_tokensOf data (effortOf level)
  rw [deflate]
  split_ifs
  · exact hstored
  · exact deflated_shorter (deflated_shorter hstored (deflated_fixedBlock htokens))
      (deflated_shorter (deflated_ownBlock htokens) (deflated_ownBlock (stand_literalsOf data)))

/-! ## Members -/

theorem holds_compress (level : Nat) (data : ByteArray) : Holds (compress level data) data :=
  holds_frame level (deflated_deflate level data)

theorem decompress_compress {limit : Nat} (level : Nat) (h : data.size ≤ limit) :
    decompress limit (compress level data) = .ok data :=
  decompress_ok_iff.2 ⟨holds_compress level data, h⟩

/-- Data beyond the limit is too long for readers, although its member is in order. -/
theorem decompress_compress_of_lt {limit : Nat} (level : Nat) (h : limit < data.size) :
    decompress limit (compress level data) = .error .tooLong := by
  obtain ⟨start, s, hheader, hinflating, -, rfl, -⟩ := holds_compress level data
  exact decompress_tooLong_iff.2 ⟨start, s, hheader, hinflating, h⟩

end SealedText.Gzip
