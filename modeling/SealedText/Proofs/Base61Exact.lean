import SealedText.Proofs.Base61RoundTrip

/-!
# Base61 reads nothing but what it writes

A text is read as a byte string exactly if its visible characters, those that reading does not skip,
are what writing that byte string gives (`decode_ok_iff`). So each byte string has one written form
up to white space and control characters, and a group that is too large or has an impossible length
is never read.

The groups carry this: as many digits as a group has determine how many bytes it holds, a number
below `256 ^ bytes` is written back from those bytes, and only the last group can be short.
-/

namespace SealedText.Base61

/-! ## Digits and numbers -/

theorem symbol_of_digit? {c : Char} {d : Nat} (h : digit? c = some d) : symbol d = c ∧ d < 61 := by
  unfold digit? at h
  split_ifs at h with hupper hlower hdigit
  · obtain ⟨hlo, hhi⟩ := hupper
    have hlo : 65 ≤ c.toNat := hlo
    have hhi : c.toNat ≤ 90 := hhi
    simp only [Option.some.injEq] at h
    subst h
    rw [symbol, if_pos (by omega), show 65 + (c.toNat - 65) = c.toNat by omega, Char.ofNat_toNat]
    exact ⟨rfl, by omega⟩
  · obtain ⟨hlo, hhi⟩ := hlower
    have hlo : 97 ≤ c.toNat := hlo
    have hhi : c.toNat ≤ 122 := hhi
    simp only [Option.some.injEq] at h
    subst h
    rw [symbol, if_neg (by omega), if_pos (by omega),
      show 97 + (c.toNat - 97 + 26 - 26) = c.toNat by omega, Char.ofNat_toNat]
    exact ⟨rfl, by omega⟩
  · obtain ⟨hlo, hhi⟩ := hdigit
    have hlo : 49 ≤ c.toNat := hlo
    have hhi : c.toNat ≤ 57 := hhi
    simp only [Option.some.injEq] at h
    subst h
    rw [symbol, if_neg (by omega), if_neg (by omega),
      show 49 + (c.toNat - 49 + 52 - 52) = c.toNat by omega, Char.ofNat_toNat]
    exact ⟨rfl, by omega⟩

theorem digits_value : ∀ {ds : List Nat}, (∀ d ∈ ds, d < 61) → digits ds.length (value ds) = ds
  | [], _ => rfl
  | d :: ds, h => by
    obtain ⟨hd, hds⟩ := List.forall_mem_cons.1 h
    have hvalue : value (d :: ds) = value ds * 61 + d := rfl
    have hmod : (value ds * 61 + d) % 61 = d := by omega
    have hdiv : (value ds * 61 + d) / 61 = value ds := by omega
    rw [List.length_cons, digits, hvalue, hmod, hdiv, digits_value hds]

theorem byteCount?_eq_some_iff {count bytes : Nat} :
    byteCount? count = some bytes ↔ 0 < bytes ∧ bytes ≤ 8 ∧ symbolCount bytes = count := by
  constructor
  · intro h
    unfold byteCount? at h
    split at h <;> cases h <;> decide
  · rintro ⟨hpos, hle, rfl⟩
    exact (byteCount?_symbolCount bytes hle hpos).1

/-! ## Groups -/

theorem decodeGroup_ok_iff {group : List Nat} (h : ∀ d ∈ group, d < 61) {bytes : Bytes} :
    decodeGroup group = .ok bytes ↔
      (0 < bytes.length ∧ bytes.length ≤ 8) ∧ group = groupDigits bytes := by
  constructor
  · intro hread
    unfold decodeGroup at hread
    split at hread
    · cases hread
    · rename_i n hcount
      obtain ⟨hpos, hle, hlen⟩ := byteCount?_eq_some_iff.1 hcount
      split_ifs at hread with hfits
      cases hread
      rw [Bytes.length_ofNat, groupDigits, Bytes.length_ofNat, Bytes.toNat_ofNat hfits, hlen,
        digits_value h]
      exact ⟨⟨hpos, hle⟩, rfl⟩
  · rintro ⟨⟨hpos, hle⟩, rfl⟩
    exact decodeGroup_groupDigits hpos hle

/-- A full group holds as many bytes as a full block has. -/
theorem length_of_groupDigits {bytes : Bytes} (hle : bytes.length ≤ 8)
    (hfull : (groupDigits bytes).length = groupSymbols) : bytes.length = groupBytes := by
  have hcount : ∀ n ≤ 8, symbolCount n = groupSymbols → n = groupBytes := by decide
  rw [groupDigits, length_digits] at hfull
  exact hcount _ hle hfull

/-- Digits that are read are those that writing what was read gives. -/
theorem digitsOf_of_decodeGroups {ds : List Nat} (h : ∀ d ∈ ds, d < 61) {data : Bytes}
    (hread : decodeGroups (blocksOf groupSymbols ds) = .ok data) :
    digitsOf data = ds := by
  fun_induction blocksOf groupSymbols ds generalizing data with
  | case1 =>
    cases hread
    rw [digitsOf, blocksOf_nil, List.flatMap_nil]
  | case2 x xs ih =>
    have hgroup : ∀ d ∈ x :: xs.take (groupSymbols - 1), d < 61 := by
      intro d hd
      rcases List.mem_cons.1 hd with rfl | hd
      · exact h d List.mem_cons_self
      · exact h d (List.mem_cons_of_mem x (List.mem_of_mem_take hd))
    have hrest : ∀ d ∈ xs.drop (groupSymbols - 1), d < 61 :=
      fun d hd => h d (List.mem_cons_of_mem x (List.mem_of_mem_drop hd))
    rw [decodeGroups] at hread
    obtain ⟨bytes, hbytes, hread⟩ := bind_eq_ok.1 hread
    obtain ⟨rest, hdecoded, hdata⟩ := bind_eq_ok.1 hread
    cases hdata
    obtain ⟨⟨hpos, hle⟩, heq⟩ := (decodeGroup_ok_iff hgroup).1 hbytes
    have ih := ih hrest hdecoded
    by_cases hlast : xs.drop (groupSymbols - 1) = []
    · rw [hlast, blocksOf_nil] at hdecoded
      cases hdecoded
      have hone : blocksOf groupBytes bytes = [bytes] :=
        blocksOf_of_length_le (List.length_pos_iff.1 hpos) hle
      rw [List.drop_eq_nil_iff] at hlast
      rw [digitsOf, List.append_nil, hone, List.flatMap_singleton, ← heq,
        List.take_of_length_le hlast]
    · have hfull : (x :: xs.take (groupSymbols - 1)).length = groupSymbols :=
        length_firstBlock (by decide) x hlast
      have hwidth : bytes.length = groupBytes := length_of_groupDigits hle (heq ▸ hfull)
      rw [digitsOf, blocksOf_append (by decide) hwidth, List.flatMap_cons, ← digitsOf, ih, ← heq,
        List.cons_append, List.take_append_drop]

/-! ## Texts -/

/-- The characters of a text that reading does not skip. -/
def visible (text : String) : List Char := text.toList.filter (!isSkipped ·)

theorem readDigits_ok_iff : ∀ {cs : List Char} {position : Nat} {ds : List Nat},
    readDigits position cs = .ok ds ↔
      cs.filter (!isSkipped ·) = ds.map symbol ∧ ∀ d ∈ ds, d < 61
  | [], position, ds => by
    rw [readDigits, List.filter_nil]
    constructor
    · intro h
      cases h
      simp
    · rintro ⟨h, -⟩
      rw [List.map_eq_nil_iff.1 h.symm]
  | c :: cs, position, ds => by
    unfold readDigits
    by_cases hskip : isSkipped c = true
    · rw [if_pos hskip, List.filter_cons_of_neg (by simp [hskip])]
      exact readDigits_ok_iff
    · rw [if_neg hskip, List.filter_cons_of_pos (by simp [hskip])]
      constructor
      · intro h
        split at h
        · cases h
        · rename_i d hd
          obtain ⟨rest, hrest, hds⟩ := bind_eq_ok.1 h
          cases hds
          obtain ⟨hsymbol, hlt⟩ := symbol_of_digit? hd
          obtain ⟨hfilter, hall⟩ := readDigits_ok_iff.1 hrest
          rw [List.map_cons, hsymbol, hfilter]
          exact ⟨rfl, List.forall_mem_cons.2 ⟨hlt, hall⟩⟩
      · rintro ⟨hfilter, hall⟩
        rcases ds with _ | ⟨d, ds⟩
        · simp at hfilter
        · obtain ⟨hd, hds⟩ := List.forall_mem_cons.1 hall
          simp only [List.map_cons, List.cons.injEq] at hfilter
          obtain ⟨rfl, hfilter⟩ := hfilter
          rw [digit?_symbol d hd]
          simp only [readDigits_ok_iff.2 ⟨hfilter, hds⟩]
          rfl

/-- A text is read as `data` exactly if its visible characters are what writing `data` gives. -/
theorem decode_ok_iff {text : String} {data : Bytes} :
    decode text = .ok data ↔ visible text = (encode data).toList := by
  constructor
  · intro h
    rw [decode, decodeChars] at h
    obtain ⟨ds, hds, hgroups⟩ := bind_eq_ok.1 h
    obtain ⟨hvisible, hall⟩ := readDigits_ok_iff.1 hds
    rw [visible, hvisible, toList_encode, digitsOf_of_decodeGroups hall hgroups]
  · intro h
    rw [toList_encode] at h
    rw [decode, decodeChars, readDigits_ok_iff.2 ⟨h, lt_of_mem_digitsOf⟩, ok_bind,
      decodeGroups_digitsOf]

/-- The groups of a text that is read: symbols only, of a length that writing produces, with a value
that the bytes of such a group can have. -/
theorem canonical_of_decode {text : String} {data : Bytes} (h : decode text = .ok data) :
    ∀ group ∈ blocksOf groupSymbols (visible text), ∃ ds bytes, group.map digit? = ds.map some ∧
      byteCount? group.length = some bytes ∧ value ds < 256 ^ bytes := by
  intro group hgroup
  rw [decode_ok_iff.1 h, toList_encode, blocksOf_map, digitsOf, blocksOf_groupDigits,
    List.map_map] at hgroup
  obtain ⟨block, hblock, rfl⟩ := List.mem_map.1 hgroup
  obtain ⟨hpos, hle⟩ := length_of_mem_blocksOf_le (show 0 < groupBytes by decide) block hblock
  refine ⟨groupDigits block, block.length, ?_, ?_, ?_⟩
  · rw [Function.comp_apply, List.map_map]
    exact List.map_congr_left fun d hd => digit?_symbol d (lt_of_mem_digits d hd)
  · rw [Function.comp_apply, List.length_map, groupDigits, length_digits]
    exact byteCount?_eq_some_iff.2 ⟨hpos, hle, rfl⟩
  · rw [value_groupDigits hle]
    exact Bytes.toNat_lt block

theorem visible_append (a b : String) : visible (a ++ b) = visible a ++ visible b := by
  rw [visible, String.toList_append, List.filter_append, visible, visible]

theorem visible_of_skipped {text : String} (h : ∀ c ∈ text.toList, isSkipped c = true) :
    visible text = [] := by
  rw [visible, List.filter_eq_nil_iff]
  intro c hc
  simp [h c hc]

theorem filter_intercalate {α : Type} {p : α → Bool} {separator : List α}
    (h : separator.filter p = []) : ∀ parts : List (List α),
      (separator.intercalate parts).filter p = parts.flatten.filter p
  | [] => rfl
  | [part] => by simp
  | part :: next :: parts => by
    rw [List.intercalate_cons_cons, List.filter_append, List.filter_append, h,
      filter_intercalate h (next :: parts), List.append_nil, ← List.filter_append,
      ← List.flatten_cons]

/-- Spaces between the symbols do not show. -/
theorem visible_spaced (width : Nat) (text : String) :
    visible (spaced width text) = visible text := by
  unfold spaced
  split_ifs
  · rfl
  · rw [visible, String.toList_ofList, filter_intercalate (by decide), flatten_blocksOf, visible]

/-- Reading undoes writing and nothing else: a text is read as a byte string exactly if its visible
characters are the written form of it. -/
theorem decode_exact :
    (∀ (text : String) (data : Bytes),
        decode text = .ok data ↔ visible text = (encode data).toList) ∧
      (∀ data, decode (encode data) = .ok data) ∧
      (∀ data other, encode data = encode other → data = other) ∧
      (∀ text data, decode text = .ok data → ∀ group ∈ blocksOf groupSymbols (visible text),
        ∃ ds bytes, group.map digit? = ds.map some ∧ byteCount? group.length = some bytes ∧
          value ds < 256 ^ bytes) ∧
      ∀ before skipped after : String, (∀ c ∈ skipped.toList, isSkipped c = true) → ∀ data,
        decode (before ++ skipped ++ after) = .ok data ↔ decode (before ++ after) = .ok data := by
  refine ⟨fun text data => decode_ok_iff, decode_encode, fun data other h => ?_,
    fun text data => canonical_of_decode, fun before skipped after h data => ?_⟩
  · have hread := decode_encode data
    rw [h, decode_encode other] at hread
    cases hread
    rfl
  · rw [decode_ok_iff, decode_ok_iff, visible_append, visible_append, visible_append,
      visible_of_skipped h, List.append_nil]

theorem brokenGroup_decodes :
    visible " L\tE\n" = (encode [255]).toList ∧ decode " L\tE\n" = .ok [255] := by
  have hvisible : visible " L\tE\n" = (encode [255]).toList := by cbv
  exact ⟨hvisible, (decode_exact.1 _ _).2 hvisible⟩

end SealedText.Base61
