import SealedText.Proofs.Base61Exact

/-!
# Base61 reports the first defect

A text that is not read is refused for its first foreign character, whatever its groups are
(`decode_symbol_iff`), and one without foreign characters for its first bad group
(`decode_group_iff`). Both passes go over a list and stop at the first element that fails, so both
rest on the same notion of a first element (`FirstAt`), which a step of either pass keeps or finds.

Spaces between the symbols change nothing but the position of a foreign character
(`decode_spaced`).
-/

namespace SealedText

/-! ## First elements -/

section FirstAt

variable {α : Type} {p : α → Prop} {xs ys : List α} {i : Nat} {x y : α}

/-- The least position at which a list has an element with a property, and that element. -/
def FirstAt (p : α → Prop) (xs : List α) (i : Nat) (x : α) : Prop :=
  IsLeast {j | ∃ y, xs[j]? = some y ∧ p y} i ∧ xs[i]? = some x

theorem not_firstAt_nil : ¬ FirstAt p [] i x := by
  rintro ⟨-, h⟩
  simp at h

theorem firstAt_cons_of_pos (h : p x) : FirstAt p (x :: xs) i y ↔ i = 0 ∧ y = x := by
  constructor
  · rintro ⟨⟨-, hmin⟩, hget⟩
    obtain rfl : i = 0 := Nat.le_zero.1 (hmin ⟨x, rfl, h⟩)
    exact ⟨rfl, (Option.some.inj hget).symm⟩
  · rintro ⟨rfl, rfl⟩
    exact ⟨⟨⟨y, rfl, h⟩, fun _ _ => Nat.zero_le _⟩, rfl⟩

theorem firstAt_cons_of_neg (h : ¬ p x) :
    FirstAt p (x :: xs) i y ↔ ∃ j, i = j + 1 ∧ FirstAt p xs j y := by
  constructor
  · rintro ⟨⟨⟨z, hz, hp⟩, hmin⟩, hget⟩
    rcases i with _ | j
    · cases hz
      exact absurd hp h
    · refine ⟨j, rfl, ⟨⟨z, hz, hp⟩, ?_⟩, hget⟩
      rintro k ⟨w, hw, hpw⟩
      exact Nat.le_of_succ_le_succ (hmin ⟨w, hw, hpw⟩)
  · rintro ⟨j, rfl, ⟨⟨z, hz, hp⟩, hmin⟩, hget⟩
    refine ⟨⟨⟨z, hz, hp⟩, ?_⟩, hget⟩
    rintro (_ | k) ⟨w, hw, hpw⟩
    · cases hw
      exact absurd hpw h
    · exact Nat.succ_le_succ (hmin ⟨w, hw, hpw⟩)

theorem mem_of_firstAt (h : FirstAt p xs i x) : x ∈ xs ∧ p x := by
  obtain ⟨⟨⟨y, hy, hp⟩, -⟩, hx⟩ := h
  rw [hx] at hy
  cases hy
  exact ⟨List.mem_of_getElem? hx, hp⟩

theorem lt_of_firstAt (h : FirstAt p xs i x) : i < xs.length :=
  (List.getElem?_eq_some_iff.1 h.2).1

theorem exists_firstAt_iff : (∃ i x, FirstAt p xs i x) ↔ ∃ x ∈ xs, p x := by
  induction xs with
  | nil => simp [not_firstAt_nil]
  | cons x xs ih =>
    by_cases hx : p x
    · simp [firstAt_cons_of_pos hx, hx]
    · simp only [firstAt_cons_of_neg hx, List.mem_cons, exists_eq_or_imp, hx, false_or, ← ih]
      constructor
      · rintro ⟨-, y, j, -, hj⟩
        exact ⟨j, y, hj⟩
      · rintro ⟨j, y, hj⟩
        exact ⟨j + 1, y, j, rfl, hj⟩

theorem firstAt_append : FirstAt p (xs ++ ys) i x ↔
    FirstAt p xs i x ∨ (∀ y ∈ xs, ¬ p y) ∧ ∃ j, i = xs.length + j ∧ FirstAt p ys j x := by
  induction xs generalizing i with
  | nil => simp [not_firstAt_nil]
  | cons z xs ih =>
    by_cases hz : p z
    · rw [List.cons_append, firstAt_cons_of_pos hz, firstAt_cons_of_pos hz]
      simp [hz]
    · rw [List.cons_append, firstAt_cons_of_neg hz, firstAt_cons_of_neg hz]
      simp only [ih, List.forall_mem_cons, hz, not_false_eq_true, true_and, List.length_cons]
      constructor
      · rintro ⟨j, rfl, hj | ⟨hnone, k, rfl, hk⟩⟩
        · exact .inl ⟨j, rfl, hj⟩
        · exact .inr ⟨hnone, k, by omega, hk⟩
      · rintro (⟨j, rfl, hj⟩ | ⟨hnone, k, rfl, hk⟩)
        · exact ⟨j, rfl, .inl hj⟩
        · exact ⟨xs.length + k, by omega, .inr ⟨hnone, k, rfl, hk⟩⟩

theorem exists_intercalate_cons (separator block : List α) (parts : List (List α)) :
    ∃ after, separator.intercalate (block :: parts) = block ++ after := by
  rcases parts with _ | ⟨next, parts⟩
  · exact ⟨[], by simp⟩
  · exact ⟨_, List.intercalate_cons_cons.trans (List.append_assoc ..)⟩

/-- Between blocks of `width`, an element without the property moves the first one with it by as
many places as there are whole blocks in front of it. -/
theorem firstAt_intercalate {separator : α} (hs : ¬ p separator) {width : Nat} (hw : 0 < width)
    (h : FirstAt p xs i x) :
    FirstAt p ([separator].intercalate (blocksOf width xs)) (i + i / width) x := by
  fun_induction blocksOf width xs generalizing i with
  | case1 => exact absurd h not_firstAt_nil
  | case2 z zs ih =>
    have hsplit : z :: zs = (z :: zs.take (width - 1)) ++ zs.drop (width - 1) := by
      rw [List.cons_append, List.take_append_drop]
    rw [hsplit, firstAt_append] at h
    rcases h with hblock | ⟨hnone, j, rfl, hrest⟩
    · have hlt := (lt_of_firstAt hblock).trans_le (length_firstBlock_le hw z zs)
      obtain ⟨after, hafter⟩ := exists_intercalate_cons [separator] (z :: zs.take (width - 1))
        (blocksOf width (zs.drop (width - 1)))
      rw [hafter, Nat.div_eq_of_lt hlt, Nat.add_zero]
      exact firstAt_append.2 (.inl hblock)
    · have hne : zs.drop (width - 1) ≠ [] := List.ne_nil_of_mem (mem_of_firstAt hrest).1
      have hfull := length_firstBlock hw z hne
      have hmoved := ih hrest
      obtain ⟨next, parts, hparts⟩ := List.exists_cons_of_ne_nil (blocksOf_ne_nil width hne)
      rw [hparts] at hmoved
      rw [hparts, List.intercalate_cons_cons, List.append_assoc, firstAt_append]
      refine .inr ⟨hnone, 1 + (j + j / width), ?_, ?_⟩
      · rw [hfull, Nat.add_div_left j hw]
        omega
      · exact firstAt_append.2 (.inr ⟨by simpa using hs, _, rfl, hmoved⟩)

end FirstAt

namespace Base61

/-! ## Characters -/

/-- The symbols, in the order of their digits. -/
def alphabet : String := "ABCDEFGHIJKLMNOPQRSTUVWXYZabcdefghijklmnopqrstuvwxyz123456789"

theorem toList_alphabet : alphabet.toList = (List.range 61).map symbol := by
  decide +kernel

/-- A character that is neither skipped nor a symbol. -/
def IsForeign (c : Char) : Prop :=
  isBlank c = false ∧ isControl c = false ∧ c ∉ alphabet.toList

theorem digit?_eq_none_iff {c : Char} : digit? c = none ↔ c ∉ alphabet.toList := by
  rw [toList_alphabet]
  constructor
  · intro h hc
    obtain ⟨d, hd, rfl⟩ := List.mem_map.1 hc
    rw [digit?_symbol d (List.mem_range.1 hd)] at h
    cases h
  · intro h
    rw [Option.eq_none_iff_forall_ne_some]
    intro d hd
    obtain ⟨hsymbol, hlt⟩ := symbol_of_digit? hd
    exact h (hsymbol ▸ List.mem_map_of_mem (List.mem_range.2 hlt))

theorem isForeign_iff {c : Char} : IsForeign c ↔ isSkipped c = false ∧ digit? c = none := by
  rw [IsForeign, isSkipped, Bool.or_eq_false_iff, digit?_eq_none_iff, and_assoc]

/-- No character of a text is foreign if all the visible ones are symbols. -/
theorem forall_not_isForeign_iff {text : String} :
    (∀ c ∈ text.toList, ¬ IsForeign c) ↔ ∀ c ∈ visible text, c ∈ alphabet.toList := by
  simp only [visible, List.mem_filter, Bool.not_eq_true', isForeign_iff, digit?_eq_none_iff,
    not_and, not_not, and_imp]

/-- Passing a character that is not foreign, only the position moves. -/
theorem symbolError_cons {c : Char} (h : ¬ IsForeign c) {cs : List Char} {position : Nat}
    {err : Defect} :
    (∃ i f, err = .symbol f (position + 1 + i) ∧ FirstAt IsForeign cs i f) ↔
      ∃ i f, err = .symbol f (position + i) ∧ FirstAt IsForeign (c :: cs) i f := by
  simp only [firstAt_cons_of_neg h]
  constructor
  · rintro ⟨i, f, rfl, hi⟩
    exact ⟨i + 1, f, by rw [Nat.add_right_comm, Nat.add_assoc], i, rfl, hi⟩
  · rintro ⟨-, f, rfl, i, rfl, hi⟩
    exact ⟨i, f, by rw [Nat.add_right_comm, Nat.add_assoc], hi⟩

theorem readDigits_error_iff : ∀ {cs : List Char} {position : Nat} {err : Defect},
    readDigits position cs = .error err ↔
      ∃ i f, err = .symbol f (position + i) ∧ FirstAt IsForeign cs i f
  | [], position, err => by simp [readDigits, not_firstAt_nil]
  | c :: cs, position, err => by
    unfold readDigits
    by_cases hskip : isSkipped c = true
    · have hc : ¬ IsForeign c := fun h => by simp [isForeign_iff, hskip] at h
      rw [if_pos hskip, readDigits_error_iff, symbolError_cons hc]
    · rw [if_neg hskip]
      rcases hd : digit? c with _ | d
      · have hc : IsForeign c := isForeign_iff.2 ⟨by simpa using hskip, hd⟩
        simp only [firstAt_cons_of_pos hc]
        constructor
        · intro h
          cases h
          exact ⟨0, c, rfl, rfl, rfl⟩
        · rintro ⟨i, f, rfl, rfl, rfl⟩
          rfl
      · have hc : ¬ IsForeign c := fun h => by simp [isForeign_iff, hd] at h
        have hreturn : ¬ ∃ ds, readDigits (position + 1) cs = .ok ds ∧
            (pure (d :: ds) : Except Defect (List Nat)) = .error err := by
          rintro ⟨ds, -, h⟩
          cases h
        rw [bind_eq_error, or_iff_left hreturn, readDigits_error_iff, symbolError_cons hc]

/-! ## Groups -/

/-- The number that a group of symbols writes. A symbol's digit is its place in the alphabet. -/
def numberOf (group : List Char) : Nat := value (group.map (alphabet.toList.idxOf ·))

/-- A group that writing cannot produce: its length is impossible, or its number is too large for
the bytes that a group of its length holds. -/
def IsBad (group : List Char) : Prop :=
  group.length = 1 ∨ group.length = 4 ∨ group.length = 8 ∨
    ∃ bytes, byteCount? group.length = some bytes ∧ 256 ^ bytes ≤ numberOf group

theorem idxOf_symbol : ∀ d < 61, alphabet.toList.idxOf (symbol d) = d := by
  rw [toList_alphabet]
  decide

theorem numberOf_map_symbol {ds : List Nat} (h : ∀ d ∈ ds, d < 61) :
    numberOf (ds.map symbol) = value ds := by
  have hdigits : (ds.map symbol).map (alphabet.toList.idxOf ·) = ds := by
    rw [List.map_map]
    exact (List.map_congr_left fun d hd => idxOf_symbol d (h d hd)).trans (List.map_id ds)
  rw [numberOf, hdigits]

theorem length_encodeGroup (block : Bytes) :
    (encodeGroup block).length = symbolCount block.length := by
  rw [encodeGroup, List.length_map, length_digits]

/-- A group holds as many bytes as the blocks that are written with its length. -/
theorem byteCount?_iff {count bytes : Nat} :
    byteCount? count = some bytes ↔ 0 < bytes ∧ bytes ≤ groupBytes ∧
      ∀ block : Bytes, block.length = bytes → (encodeGroup block).length = count := by
  rw [byteCount?_eq_some_iff]
  refine and_congr_right fun _ => and_congr_right fun _ => ⟨?_, fun h => ?_⟩
  · rintro rfl block rfl
    exact length_encodeGroup block
  · have hblock := h (List.replicate bytes 0) List.length_replicate
    rwa [length_encodeGroup, List.length_replicate] at hblock

/-- The lengths of groups that no number of bytes has. -/
theorem byteCount?_eq_none_iff : ∀ count ≤ groupSymbols, 0 < count →
    (byteCount? count = none ↔ count = 1 ∨ count = 4 ∨ count = 8) := by
  decide

theorem decodeGroup_error_iff {group : List Nat} (hlt : ∀ d ∈ group, d < 61)
    (hpos : 0 < group.length) (hle : group.length ≤ groupSymbols) {err : Defect} :
    decodeGroup group = .error err ↔ IsBad (group.map symbol) ∧ err = .group group.length := by
  have hnone := byteCount?_eq_none_iff group.length hle hpos
  rw [decodeGroup, IsBad, numberOf_map_symbol hlt, List.length_map]
  rcases hcount : byteCount? group.length with _ | bytes
  · have hlength := hnone.1 hcount
    constructor
    · intro h
      cases h
      exact ⟨by tauto, rfl⟩
    · rintro ⟨-, rfl⟩
      rfl
  · have hlength : ¬ (group.length = 1 ∨ group.length = 4 ∨ group.length = 8) := by
      rw [← hnone, hcount]
      simp
    by_cases hfits : value group < Nat.pow 256 bytes
    · have hvalue : ¬ 256 ^ bytes ≤ value group := Nat.not_le.2 hfits
      simp only [if_pos hfits, reduceCtorEq, Option.some.injEq, exists_eq_left', hvalue, false_iff]
      tauto
    · have hvalue : 256 ^ bytes ≤ value group := Nat.not_lt.1 hfits
      simp only [if_neg hfits, Except.error.injEq, Option.some.injEq, exists_eq_left', hvalue,
        or_true, true_and, eq_comm]

/-- The first bad group decides. -/
theorem decodeGroups_error_iff : ∀ {groups : List (List Nat)},
    (∀ g ∈ groups, (∀ d ∈ g, d < 61) ∧ 0 < g.length ∧ g.length ≤ groupSymbols) → ∀ {err : Defect},
      (decodeGroups groups = .error err ↔
        ∃ i g, err = .group g.length ∧ FirstAt IsBad (groups.map (List.map symbol)) i g)
  | [], _, err => by simp [decodeGroups, not_firstAt_nil]
  | group :: groups, h, err => by
    obtain ⟨⟨hlt, hpos, hle⟩, hrest⟩ := List.forall_mem_cons.1 h
    have hgroup := @decodeGroup_error_iff group hlt hpos hle
    rw [List.map_cons, decodeGroups]
    rcases hread : decodeGroup group with found | bytes
    · obtain ⟨hbad, rfl⟩ := hgroup.1 hread
      simp only [firstAt_cons_of_pos hbad, error_bind]
      constructor
      · intro h
        cases h
        exact ⟨0, _, by rw [List.length_map], rfl, rfl⟩
      · rintro ⟨i, g, rfl, rfl, rfl⟩
        rw [List.length_map]
    · have hgood : ¬ IsBad (group.map symbol) := by
        intro hbad
        rw [hgroup.2 ⟨hbad, rfl⟩] at hread
        cases hread
      have hreturn : ¬ ∃ more, decodeGroups groups = .ok more ∧
          (pure (bytes ++ more) : Except Defect Bytes) = .error err := by
        rintro ⟨more, -, h⟩
        cases h
      rw [ok_bind, bind_eq_error, or_iff_left hreturn, decodeGroups_error_iff hrest]
      simp only [firstAt_cons_of_neg hgood]
      constructor
      · rintro ⟨i, g, hg, hi⟩
        exact ⟨i + 1, g, hg, i, rfl, hi⟩
      · rintro ⟨-, g, hg, i, rfl, hi⟩
        exact ⟨i, g, hg, hi⟩

/-! ## Texts -/

theorem groups_of_readDigits {cs : List Char} {ds : List Nat} (h : readDigits 0 cs = .ok ds) :
    ∀ g ∈ blocksOf groupSymbols ds,
      (∀ d ∈ g, d < 61) ∧ 0 < g.length ∧ g.length ≤ groupSymbols := by
  obtain ⟨-, hlt⟩ := readDigits_ok_iff.1 h
  intro g hg
  exact ⟨fun d hd => hlt d (mem_of_mem_blocksOf hg hd),
    length_of_mem_blocksOf_le (by decide) g hg⟩

/-- The groups of a text: its visible characters, cut. -/
def groupsOf (text : String) : List (List Char) := blocksOf groupSymbols (visible text)

theorem groupsOf_eq {text : String} {ds : List Nat} (h : readDigits 0 text.toList = .ok ds) :
    groupsOf text = (blocksOf groupSymbols ds).map (List.map symbol) := by
  rw [groupsOf, visible, (readDigits_ok_iff.1 h).1, blocksOf_map]

theorem exists_readDigits_iff {cs : List Char} :
    (∃ ds, readDigits 0 cs = .ok ds) ↔ ∀ c ∈ cs, ¬ IsForeign c := by
  rcases hread : readDigits 0 cs with err | ds
  · obtain ⟨i, c, -, hc⟩ := readDigits_error_iff.1 hread
    obtain ⟨hmem, hforeign⟩ := mem_of_firstAt hc
    simp only [reduceCtorEq, exists_false, false_iff]
    exact fun h => h c hmem hforeign
  · simp only [Except.ok.injEq, exists_eq', true_iff]
    intro c hc hforeign
    obtain ⟨i, f, hf⟩ := exists_firstAt_iff.2 ⟨c, hc, hforeign⟩
    rw [readDigits_error_iff.2 ⟨i, f, rfl, hf⟩] at hread
    cases hread

/-- A text is refused for its first foreign character or, if there is none, its first bad group. -/
theorem decode_error_iff {text : String} {err : Defect} :
    decode text = .error err ↔
      (∃ i c, err = .symbol c i ∧ FirstAt IsForeign text.toList i c) ∨
        (∀ c ∈ text.toList, ¬ IsForeign c) ∧
          ∃ i g, err = .group g.length ∧ FirstAt IsBad (groupsOf text) i g := by
  rw [decode, decodeChars, bind_eq_error, readDigits_error_iff, ← exists_readDigits_iff]
  simp only [Nat.zero_add]
  refine or_congr_right ⟨?_, ?_⟩
  · rintro ⟨ds, hds, hgroups⟩
    rw [groupsOf_eq hds, ← decodeGroups_error_iff (groups_of_readDigits hds)]
    exact ⟨⟨ds, hds⟩, hgroups⟩
  · rintro ⟨⟨ds, hds⟩, hgroups⟩
    rw [groupsOf_eq hds, ← decodeGroups_error_iff (groups_of_readDigits hds)] at hgroups
    exact ⟨ds, hds, hgroups⟩

theorem decode_symbol_iff {text : String} {c : Char} {i : Nat} :
    decode text = .error (.symbol c i) ↔ FirstAt IsForeign text.toList i c := by
  simp [decode_error_iff]

theorem decode_group_iff {text : String} {n : Nat} :
    decode text = .error (.group n) ↔ (∀ c ∈ text.toList, ¬ IsForeign c) ∧
      ∃ i g, FirstAt IsBad (groupsOf text) i g ∧ g.length = n := by
  simp [decode_error_iff, and_comm, eq_comm]

/-- Every other text is read. -/
theorem exists_decode_iff {text : String} :
    (∃ data, decode text = .ok data) ↔
      (∀ c ∈ text.toList, ¬ IsForeign c) ∧ ∀ g ∈ groupsOf text, ¬ IsBad g := by
  constructor
  · rintro ⟨data, hdata⟩
    have hclear : ∀ c ∈ text.toList, ¬ IsForeign c := by
      intro c hc hforeign
      obtain ⟨i, f, hf⟩ := exists_firstAt_iff.2 ⟨c, hc, hforeign⟩
      rw [decode_symbol_iff.2 hf] at hdata
      cases hdata
    refine ⟨hclear, fun g hg hbad => ?_⟩
    obtain ⟨i, f, hf⟩ := exists_firstAt_iff.2 ⟨g, hg, hbad⟩
    rw [decode_group_iff.2 ⟨hclear, i, f, hf, rfl⟩] at hdata
    cases hdata
  · rintro ⟨hclear, hgood⟩
    rcases hread : decode text with err | data
    · rcases decode_error_iff.1 hread with ⟨i, c, -, hc⟩ | ⟨-, i, g, -, hg⟩
      · obtain ⟨hmem, hforeign⟩ := mem_of_firstAt hc
        exact absurd hforeign (hclear c hmem)
      · obtain ⟨hmem, hbad⟩ := mem_of_firstAt hg
        exact absurd hbad (hgood g hmem)
    · exact ⟨data, rfl⟩

/-! ## Spaced texts -/

/-- The same defect in a text with a space after every `width` characters. Only the position of a
character moves, and a width of 0 moves nothing. -/
def Defect.spacedBy (width : Nat) : Defect → Defect
  | .symbol found position => .symbol found (position + position / width)
  | .group length => .group length

theorem firstAt_spaced (width : Nat) {text : String} {i : Nat} {c : Char}
    (h : FirstAt IsForeign text.toList i c) :
    FirstAt IsForeign (spaced width text).toList (i + i / width) c := by
  unfold spaced
  split_ifs with hw
  · rwa [hw, Nat.div_zero, Nat.add_zero]
  · have hspace : ¬ IsForeign ' ' := fun h => absurd h.1 (by decide)
    rw [String.toList_ofList]
    exact firstAt_intercalate hspace (Nat.pos_of_ne_zero hw) h

/-- Spaces between the symbols change neither what is read nor why it is refused. -/
theorem decode_spaced (width : Nat) (text : String) :
    decode (spaced width text) = (decode text).mapError (Defect.spacedBy width) := by
  rcases hread : decode text with (⟨c, i⟩ | n) | data
  · exact decode_symbol_iff.2 (firstAt_spaced width (decode_symbol_iff.1 hread))
  · obtain ⟨hclear, hgroup⟩ := decode_group_iff.1 hread
    refine decode_group_iff.2 ⟨?_, ?_⟩
    · rwa [forall_not_isForeign_iff, visible_spaced, ← forall_not_isForeign_iff]
    · rwa [groupsOf, visible_spaced]
  · refine decode_ok_iff.2 ?_
    rw [visible_spaced]
    exact decode_ok_iff.1 hread

/-- A text is refused for its first foreign character, at its position among all characters, and no
group matters then. A text without one is refused for its first bad group and read if there is none.
A group holds the bytes that are written with its length. Spaces between the symbols, whatever their
distance, only move the position of a foreign character. -/
theorem decode_first_defect (text : String) :
    (∀ c i, decode text = .error (.symbol c i) ↔ FirstAt IsForeign text.toList i c) ∧
      (∀ n, decode text = .error (.group n) ↔ (∀ c ∈ text.toList, ¬ IsForeign c) ∧
        ∃ i g, FirstAt IsBad (blocksOf 11 (visible text)) i g ∧ g.length = n) ∧
      ((∃ data, decode text = .ok data) ↔ (∀ c ∈ text.toList, ¬ IsForeign c) ∧
        ∀ g ∈ blocksOf 11 (visible text), ¬ IsBad g) ∧
      (∀ count bytes, byteCount? count = some bytes ↔ 0 < bytes ∧ bytes ≤ 8 ∧
        ∀ block : Bytes, block.length = bytes → (encodeGroup block).length = count) ∧
      ∀ width, decode (spaced width text) = (decode text).mapError (Defect.spacedBy width) :=
  ⟨fun _ _ => decode_symbol_iff, fun _ => decode_group_iff, exists_decode_iff,
    fun _ _ => byteCount?_iff, fun width => decode_spaced width text⟩

/-- The first eleven symbols are a bad group, but a foreign character comes after them. -/
example : decode "99999999999 A-" = .error (.symbol '-' 13) := by cbv

end Base61

end SealedText
