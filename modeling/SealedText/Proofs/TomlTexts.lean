import Mathlib.Tactic.SplitIfs
import SealedText.Toml.Text

/-!
# Texts in TOML read back

Both forms with escapes read every character back from what it was escaped to (`ReadsEscapes`). Both
forms over several lines end at the third mark in a row, so a text stands in one of them if no three
marks do (`Unclosed`): the writer escapes a third quote, and takes apostrophes only for a text with
two in a row at most. So whichever form `quoteText` takes, the text is read back from it
(`readAnyText_quoteText`).
-/

namespace SealedText.Toml

theorem isPlain_or_eq {c : Char} (h : needsCode c = false) : isPlain c = true ∨ c = '\n' := by
  by_cases hplain : isPlain c = true
  · exact .inl hplain
  · exact .inr (by simpa [needsCode, hplain] using h)

/-! ## Escapes -/

/-- The reader takes a letter and a code after a backslash for their character, and any other
character as it stands. -/
structure ReadsEscapes (read : List Char → Option (List Char × List Char)) : Prop where
  letter : ∀ {letter c : Char} (rest : List Char), escaped? letter = some c →
    read ('\\' :: letter :: rest) = prepend c (read rest)
  code : ∀ {a b c d coded : Char} (rest : List Char), coded? [a, b, c, d] = some coded →
    read ('\\' :: 'u' :: a :: b :: c :: d :: rest) = prepend coded (read rest)
  plain : ∀ {c : Char} (rest : List Char), isPlain c = true → c ≠ '"' → c ≠ '\\' →
    read (c :: rest) = prepend c (read rest)

theorem coded?_digits : ∀ n < 128,
    coded? ['0', '0', hexCapital (n / 16), hexCapital (n % 16)] = some (Char.ofNat n) := by
  decide

theorem toNat_lt_of_needsCode {c : Char} (h : needsCode c = true) : c.toNat < 128 := by
  refine Nat.lt_of_not_le fun hhigh => ?_
  have hplain : isPlain c = true := by
    simp only [isPlain, Bool.or_eq_true, Bool.and_eq_true, decide_eq_true_eq]
    omega
  simp [needsCode, hplain] at h

theorem ReadsEscapes.read_escapeChar {read : List Char → Option (List Char × List Char)}
    (h : ReadsEscapes read) (c : Char) (rest : List Char) :
    read (escapeChar c ++ rest) = prepend c (read rest) := by
  unfold escapeChar
  split_ifs with hback htab hline hfeed hreturn hquote hslash hcode
  · exact h.letter rest (by rw [hback]; rfl)
  · exact h.letter rest (by rw [htab]; rfl)
  · exact h.letter rest (by rw [hline]; rfl)
  · exact h.letter rest (by rw [hfeed]; rfl)
  · exact h.letter rest (by rw [hreturn]; rfl)
  · exact h.letter rest (by rw [hquote]; rfl)
  · exact h.letter rest (by rw [hslash]; rfl)
  · have hdigits := coded?_digits c.toNat (toNat_lt_of_needsCode hcode)
    rw [Char.ofNat_toNat] at hdigits
    exact h.code rest hdigits
  · refine h.plain rest ((isPlain_or_eq ?_).resolve_right hline) hquote hslash
    simpa using hcode

theorem ne_of_escaped? {letter c : Char} (h : escaped? letter = some c) :
    letter ≠ 'u' ∧ letter ≠ 'U' ∧ letter ≠ '\n' ∧ letter ≠ '\r' ∧ letter ≠ ' ' ∧ letter ≠ '\t' := by
  refine ⟨?_, ?_, ?_, ?_, ?_, ?_⟩ <;> rintro rfl <;> cases h

theorem ne_of_isPlain {c : Char} (h : isPlain c = true) : c ≠ '\n' ∧ c ≠ '\r' := by
  constructor <;> rintro rfl <;> cases h

theorem readsEscapes_quoted : ReadsEscapes readQuoted where
  letter rest h := by
    obtain ⟨hu, hU, -⟩ := ne_of_escaped? h
    rw [readQuoted.eq_5 _ _ (fun _ _ _ _ _ h _ => hu h) (fun _ _ _ _ _ _ _ _ _ h _ => hU h), h]
    rfl
  code rest h := by
    rw [readQuoted.eq_3, h]
    rfl
  plain rest h hquote hslash := by
    rw [readQuoted.eq_6 _ _ hquote (fun _ _ _ _ _ h _ => hslash h)
      (fun _ _ _ _ _ _ _ _ _ h _ => hslash h) (fun _ _ h _ => hslash h)]
    simp [h, hslash]

theorem readsEscapes_quotedLines : ReadsEscapes (readQuotedLines .text) where
  letter rest h := by
    obtain ⟨hu, hU, hline, hreturn, hspace, htab⟩ := ne_of_escaped? h
    rw [readQuotedLines.eq_20 _ _ _ hline (fun _ h _ => hreturn h) hspace htab
      (fun _ _ _ _ _ h _ => hu h) (fun _ _ _ _ _ _ _ _ _ h _ => hU h) (by simp), h]
    rfl
  code rest h := by
    simp [readQuotedLines, h]
  plain rest h hquote hslash := by
    obtain ⟨_, hreturn⟩ := ne_of_isPlain h
    simp [readQuotedLines, h, hquote, hslash, hreturn]

theorem readQuoted_escaped (rest : List Char) :
    ∀ cs : List Char, readQuoted (cs.flatMap escapeChar ++ '"' :: rest) = some (cs, rest)
  | [] => readQuoted.eq_2 rest
  | c :: cs => by
    rw [List.flatMap_cons, List.append_assoc, readsEscapes_quoted.read_escapeChar,
      readQuoted_escaped rest cs]
    rfl

theorem readLiteral_plain (rest : List Char) : ∀ {cs : List Char},
    (∀ c ∈ cs, isPlain c = true ∧ c ≠ '\'') → readLiteral (cs ++ '\'' :: rest) = some (cs, rest)
  | [], _ => readLiteral.eq_2 rest
  | c :: cs, h => by
    obtain ⟨⟨hplain, hne⟩, hcs⟩ := List.forall_mem_cons.1 h
    rw [List.cons_append, readLiteral.eq_3 _ _ hne, if_pos hplain, readLiteral_plain rest hcs]
    rfl

/-! ## Several lines -/

/-- The reader ends at three marks, takes up to two marks in front of those into the text, and takes
a mark that does not start three in a row as it stands. -/
structure ReadsLines (mark : Char) (read : List Char → Option (List Char × List Char)) : Prop where
  three : ∀ rest : List Char, (∀ more, rest ≠ mark :: more) →
    read (mark :: mark :: mark :: rest) = some ([], rest)
  four : ∀ rest : List Char, (∀ more, rest ≠ mark :: more) →
    read (mark :: mark :: mark :: mark :: rest) = some ([mark], rest)
  five : ∀ rest : List Char,
    read (mark :: mark :: mark :: mark :: mark :: rest) = some ([mark, mark], rest)
  one : ∀ rest : List Char, (∀ more, rest ≠ mark :: mark :: more) →
    read (mark :: rest) = prepend mark (read rest)

/-- What is written is read back character by character, and no three marks stand in a row in it,
of which `run` stand right in front. -/
inductive Unclosed (mark : Char) (read : List Char → Option (List Char × List Char)) :
    Nat → List Char → List Char → Prop
  | nil (run : Nat) : Unclosed mark read run [] []
  | char {run : Nat} {c : Char} {cs written : List Char} (first : Char) (more : List Char)
      (hne : first ≠ mark) (hread : ∀ rest, read (first :: more ++ rest) = prepend c (read rest))
      (h : Unclosed mark read 0 cs written) :
      Unclosed mark read run (c :: cs) (first :: more ++ written)
  | mark {run : Nat} {cs written : List Char} (hrun : run < 2)
      (h : Unclosed mark read (run + 1) cs written) :
      Unclosed mark read run (mark :: cs) (mark :: written)

section Lines

variable {mark : Char} {read : List Char → Option (List Char × List Char)} {run : Nat}
  {cs written : List Char}

theorem Unclosed.read_eq (hread : ReadsLines mark read) (h : Unclosed mark read run cs written)
    {rest : List Char} (hrest : ∀ more, rest ≠ mark :: more) :
    read (written ++ mark :: mark :: mark :: rest) = some (cs, rest) := by
  induction h with
  | nil run => exact hread.three rest hrest
  | char first more hne hchar h ih =>
    rw [List.append_assoc, hchar, ih]
    rfl
  | @mark run cs written hrun h ih =>
    have hmore (hno : ∀ more, written ++ mark :: mark :: mark :: rest ≠ mark :: mark :: more) :
        read (mark :: written ++ mark :: mark :: mark :: rest) = some (mark :: cs, rest) := by
      rw [List.cons_append, hread.one _ hno, ih]
      rfl
    cases h with
    | nil => exact hread.four rest hrest
    | char first more hne hchar h => exact hmore (by simp [hne])
    | mark hrun h =>
      cases h with
      | nil => exact hread.five rest
      | char first more hne hchar h => exact hmore (by simp [hne])
      | mark hrun₂ h => omega

end Lines

theorem readsLines_quoted : ReadsLines '"' (readQuotedLines .text) where
  three rest h := by simp [readQuotedLines, h]
  four rest _ := by simp [readQuotedLines]
  five rest := by simp [readQuotedLines]
  one rest h := by simp [readQuotedLines, isPlain, h]

theorem readsLines_literal : ReadsLines '\'' readLiteralLines where
  three rest h := by simp [readLiteralLines, h]
  four rest _ := by simp [readLiteralLines]
  five rest := by simp [readLiteralLines]
  one rest h := by simp [readLiteralLines, isPlain, h]

/-- What a character is escaped to starts with neither a quote nor a line break. -/
theorem exists_escapeChar (c : Char) :
    ∃ first more, escapeChar c = first :: more ∧ first ≠ '"' ∧ first ≠ '\n' ∧ first ≠ '\r' := by
  unfold escapeChar
  split_ifs with hback htab hline hfeed hreturn hquote hslash hcode
  iterate 8 exact ⟨'\\', _, rfl, by decide, by decide, by decide⟩
  exact ⟨c, [], rfl, hquote, hline, hreturn⟩

theorem unclosed_escapeLines : ∀ (cs : List Char) (run : Nat),
    Unclosed '"' (readQuotedLines .text) run cs (escapeLines run cs)
  | [], run => .nil run
  | c :: cs, run => by
    rw [escapeLines]
    split_ifs with hquote hrun hline
    · rw [hquote]
      exact .mark hrun (unclosed_escapeLines cs (run + 1))
    · rw [hquote]
      exact .char '\\' ['"'] (by decide)
        (fun rest => readsEscapes_quotedLines.letter rest rfl) (unclosed_escapeLines cs 0)
    · rw [hline]
      exact .char '\n' [] (by decide) (fun rest => by simp [readQuotedLines])
        (unclosed_escapeLines cs 0)
    · obtain ⟨first, more, hescape, hne, -⟩ := exists_escapeChar c
      have hread := readsEscapes_quotedLines.read_escapeChar c
      rw [hescape] at hread ⊢
      exact .char first more hne hread (unclosed_escapeLines cs 0)

theorem le_longestRun (mark : Char) : ∀ (cs : List Char) (run : Nat), run ≤ longestRun mark run cs
  | [], _ => Nat.le_refl _
  | c :: cs, run => by
    rw [longestRun]
    split_ifs
    · exact Nat.le_of_succ_le (le_longestRun mark cs (run + 1))
    · exact Nat.le_max_left ..

theorem unclosed_literal : ∀ {cs : List Char} {run : Nat}, (∀ c ∈ cs, needsCode c = false) →
    longestRun '\'' run cs ≤ 2 → Unclosed '\'' readLiteralLines run cs cs
  | [], run, _, _ => .nil run
  | c :: cs, run, hplain, hrun => by
    obtain ⟨hc, hcs⟩ := List.forall_mem_cons.1 hplain
    rw [longestRun] at hrun
    split_ifs at hrun with hmark
    · have hle := le_longestRun '\'' cs (run + 1)
      rw [hmark]
      exact .mark (by omega) (unclosed_literal hcs hrun)
    · refine .char c [] hmark (fun rest => ?_) (unclosed_literal hcs (by omega))
      rcases isPlain_or_eq hc with h | rfl
      · obtain ⟨_, hreturn⟩ := ne_of_isPlain h
        simp [readLiteralLines, h, hmark, hreturn]
      · simp [readLiteralLines]

/-! ## Any form -/

/-- The line break after the opening is dropped, and no other. -/
theorem dropBreak_openingBreak {cs written : List Char}
    (h : '\n' ∉ cs → ∀ more, written ≠ '\n' :: more ∧ written ≠ '\r' :: '\n' :: more) :
    dropBreak (openingBreak cs ++ written) = written := by
  by_cases hbroken : '\n' ∈ cs
  · simp [openingBreak, hbroken, dropBreak]
  · have hnone : openingBreak cs = [] := by simp [openingBreak, hbroken]
    rw [hnone, List.nil_append, dropBreak.eq_3 _ (fun more => (h hbroken more).1)
      fun more => (h hbroken more).2]

section Forms

variable {cs rest : List Char}

theorem readAnyText_quoted (cs : List Char) (hrest : ∀ more, rest ≠ '"' :: more) :
    readAnyText (quoted cs ++ rest) = some (cs, rest) := by
  have hopen : ∀ more, cs.flatMap escapeChar ++ '"' :: rest ≠ '"' :: '"' :: more := by
    cases cs with
    | nil => simp [hrest]
    | cons c cs =>
      obtain ⟨first, more, hescape, hne, -⟩ := exists_escapeChar c
      simp [hescape, hne]
  have hform : quoted cs ++ rest = '"' :: (cs.flatMap escapeChar ++ '"' :: rest) := by
    simp [quoted]
  rw [hform, readAnyText.eq_2 _ hopen, readQuoted_escaped]

theorem readAnyText_literal (hne : cs ≠ []) (h : ∀ c ∈ cs, isPlain c = true ∧ c ≠ '\'') :
    readAnyText ('\'' :: cs ++ ['\''] ++ rest) = some (cs, rest) := by
  obtain ⟨c, more, rfl⟩ := List.exists_cons_of_ne_nil hne
  have hopen : ∀ more₁, c :: more ++ '\'' :: rest ≠ '\'' :: '\'' :: more₁ := by
    simp [(h c List.mem_cons_self).2]
  have hform : '\'' :: (c :: more) ++ ['\''] ++ rest = '\'' :: (c :: more ++ '\'' :: rest) := by
    simp
  rw [hform, readAnyText.eq_4 _ hopen, readLiteral_plain rest h]

theorem readAnyText_quotedLines (cs : List Char) (hrest : ∀ more, rest ≠ '"' :: more) :
    readAnyText (quotedLines cs ++ rest) = some (cs, rest) := by
  have hform : quotedLines cs ++ rest = '"' :: '"' :: '"' ::
      (openingBreak cs ++ (escapeLines 0 cs ++ '"' :: '"' :: '"' :: rest)) := by
    simp [quotedLines, threeQuotes]
  rw [hform, readAnyText.eq_1, dropBreak_openingBreak,
    (unclosed_escapeLines cs 0).read_eq readsLines_quoted hrest]
  intro hline
  cases cs with
  | nil => simp [escapeLines]
  | cons c cs =>
    obtain ⟨first, more, hescape, -, hfirst⟩ := exists_escapeChar c
    have hc : c ≠ '\n' := fun hc => hline (by simp [hc])
    by_cases hquote : c = '"'
    · simp [escapeLines, hquote]
    · simp [escapeLines, hquote, hc, hescape, hfirst]

theorem readAnyText_literalLines (hplain : ∀ c ∈ cs, needsCode c = false)
    (hrun : longestRun '\'' 0 cs ≤ 2) (hrest : ∀ more, rest ≠ '\'' :: more) :
    readAnyText (threeApostrophes ++ openingBreak cs ++ cs ++ threeApostrophes ++ rest) =
      some (cs, rest) := by
  have hform : threeApostrophes ++ openingBreak cs ++ cs ++ threeApostrophes ++ rest =
      '\'' :: '\'' :: '\'' ::
        (openingBreak cs ++ (cs ++ '\'' :: '\'' :: '\'' :: rest)) := by
    simp [threeApostrophes]
  rw [hform, readAnyText.eq_3, dropBreak_openingBreak,
    (unclosed_literal hplain hrun).read_eq readsLines_literal hrest]
  intro hline
  cases cs with
  | nil => simp
  | cons c cs =>
    obtain ⟨hc, -⟩ := List.forall_mem_cons.1 hplain
    have hne : c ≠ '\n' := fun hc => hline (by simp [hc])
    simp [ne_of_isPlain ((isPlain_or_eq hc).resolve_right hne)]

/-- A text is read back from the form it was written in, whatever follows but a mark. -/
theorem readAnyText_quoteText (cs : List Char)
    (hrest : ∀ more, rest ≠ '"' :: more ∧ rest ≠ '\'' :: more) :
    readAnyText (quoteText cs ++ rest) = some (cs, rest) := by
  have hquote : ∀ more, rest ≠ '"' :: more := fun more => (hrest more).1
  have happ : ∀ more, rest ≠ '\'' :: more := fun more => (hrest more).2
  unfold quoteText
  simp only []
  split_ifs with hbare hliteral hlines hliteralLines
  · exact readAnyText_quoted cs hquote
  · simp only [Bool.and_eq_true, Bool.not_eq_true', List.any_eq_false,
      List.contains_eq_mem, decide_eq_false_iff_not] at hliteral hbare
    obtain ⟨⟨hplain, hline⟩, hmark⟩ := hliteral
    refine readAnyText_literal ?_ fun c hc => ⟨?_, ?_⟩
    · rintro rfl
      exact hbare (by simp)
    · have hc₁ : needsCode c = false := by simpa using hplain c hc
      exact (isPlain_or_eq hc₁).resolve_right fun h => hline (h ▸ hc)
    · exact fun h => hmark (h ▸ hc)
  · exact readAnyText_quotedLines cs hquote
  · simp only [Bool.and_eq_true, Bool.not_eq_true', List.any_eq_false,
      decide_eq_true_eq] at hliteralLines
    exact readAnyText_literalLines (by simpa using hliteralLines.1) hliteralLines.2 happ
  · exact readAnyText_quotedLines cs hquote
  · exact readAnyText_quoted cs hquote

theorem exists_quoteText (cs : List Char) :
    ∃ mark more, quoteText cs = mark :: more ∧ (mark = '"' ∨ mark = '\'') := by
  unfold quoteText
  simp only []
  split_ifs
  · exact ⟨'"', _, rfl, .inl rfl⟩
  · exact ⟨'\'', _, rfl, .inr rfl⟩
  · exact ⟨'"', _, rfl, .inl rfl⟩
  · exact ⟨'\'', _, rfl, .inr rfl⟩
  · exact ⟨'"', _, rfl, .inl rfl⟩
  · exact ⟨'"', _, rfl, .inl rfl⟩

end Forms

end SealedText.Toml
