import Mathlib.Tactic.SplitIfs
import SealedText.Proofs.TomlTexts
import SealedText.Toml.Reader

/-!
# Documents in TOML read back

A document that is written line by line, each line a header, a key with its value or nothing, is
read as the statements in its lines (`Document.readStatements_eq`). Values here are texts, numbers
and truth values. A number is written in decimal digits, which are no date, since no mark of a date
or time stands behind them (`readDate?_digits`).
-/

namespace SealedText.Toml

/-! ## Numbers -/

/-- The value of a decimal digit. -/
def digitValue (c : Char) : Nat := c.toNat - 48

theorem digitOf?_of_isDigit {c : Char} (h : c.isDigit = true) :
    digitOf? 10 c = some (digitValue c) := by
  have hc : 48 ≤ c.toNat ∧ c.toNat ≤ 57 := by simpa [Char.isDigit, UInt32.le_iff_toNat_le] using h
  have hle : '0' ≤ c ∧ c ≤ '9' := by simpa [Char.le_def, UInt32.le_iff_toNat_le] using hc
  have hlt : c.toNat - 48 < 10 := by omega
  simp only [digitOf?, if_pos hle, if_pos hlt, digitValue]

section Digits

variable {ds rest : List Char}

theorem moreDigits_digits (rest : List Char) : ∀ {ds : List Char}, (∀ c ∈ ds, c.isDigit = true) →
    moreDigits 10 (ds ++ '\n' :: rest) = some (ds.map digitValue, '\n' :: rest)
  | [], _ => by simp [moreDigits, digitOf?]
  | d :: ds, h => by
    obtain ⟨hd, hds⟩ := List.forall_mem_cons.1 h
    have hne : d ≠ '_' := by
      rintro rfl
      cases hd
    rw [List.cons_append, moreDigits.eq_3 _ _ _ fun _ _ h _ => hne h, digitOf?_of_isDigit hd,
      moreDigits_digits rest hds]
    rfl

theorem wholeDigits_digits (hne : ds ≠ []) (h : ∀ c ∈ ds, c.isDigit = true)
    (hzero : ds.head? = some '0' → ds = ['0']) :
    wholeDigits (ds ++ '\n' :: rest) = some (ds.map digitValue, '\n' :: rest) := by
  obtain ⟨d, more, rfl⟩ := List.exists_cons_of_ne_nil hne
  obtain ⟨hd, hmore⟩ := List.forall_mem_cons.1 h
  by_cases hd₀ : d = '0'
  · cases hzero (by rw [hd₀]; rfl)
    rfl
  · rw [wholeDigits.eq_2 _ (by simp [hd₀]), List.cons_append, someDigits, digitOf?_of_isDigit hd]
    simp [moreDigits_digits rest hmore]

theorem mapM_digitOf?_of_mem : ∀ {cs : List Char}, '\n' ∈ cs → cs.mapM (digitOf? 10) = none
  | [], h => by cases h
  | c :: cs, h => by
    rw [List.mapM_cons]
    rcases List.mem_cons.1 h with rfl | h
    · rfl
    · rw [mapM_digitOf?_of_mem h]
      cases digitOf? 10 c <;> rfl

theorem of_fixedDigits {count low high n : Nat} {cs after : List Char}
    (h : fixedDigits count low high cs = some (n, after)) :
    after = cs.drop count ∧ '\n' ∉ cs.take count := by
  rw [fixedDigits] at h
  cases hvalues : (cs.take count).mapM (digitOf? 10) with
  | none =>
    rw [hvalues] at h
    cases h
  | some values =>
    rw [hvalues] at h
    simp only [Option.bind_eq_bind, Option.bind_some] at h
    split_ifs at h
    cases h
    refine ⟨rfl, fun hmem => ?_⟩
    rw [mapM_digitOf?_of_mem hmem] at hvalues
    cases hvalues

/-- Behind digits of a row stands another digit or the end of the line. -/
theorem expect_of_fixedDigits (h : ∀ c ∈ ds, c.isDigit = true) {mark : Char}
    (hmark : mark.isDigit = false) (hline : mark ≠ '\n') {count low high n : Nat}
    {after : List Char}
    (hread : fixedDigits count low high (ds ++ '\n' :: rest) = some (n, after)) :
    expect mark after = none := by
  obtain ⟨rfl, hmem⟩ := of_fixedDigits hread
  have hcount : count ≤ ds.length := by
    refine Nat.le_of_not_lt fun hlt => hmem ?_
    obtain ⟨more, hmore⟩ : ∃ more, count = ds.length + (more + 1) :=
      ⟨count - ds.length - 1, by omega⟩
    simp [hmore, List.take_length_add_append]
  rw [List.drop_append_of_le_length hcount]
  cases hdrop : ds.drop count with
  | nil => simp [expect, Ne.symm hline]
  | cons d more =>
    have hd : d.isDigit = true := h d (List.mem_of_mem_drop (hdrop ▸ List.mem_cons_self))
    have hne : d ≠ mark := by
      rintro rfl
      rw [hd] at hmark
      cases hmark
    simp [expect, hne]

theorem readDate?_digits (h : ∀ c ∈ ds, c.isDigit = true) :
    readDate? (ds ++ '\n' :: rest) = none := by
  have hday : readDay (ds ++ '\n' :: rest) = none := by
    unfold readDay
    cases hread : fixedDigits 4 0 9999 (ds ++ '\n' :: rest) with
    | none => rfl
    | some read =>
      simp [expect_of_fixedDigits h (show '-'.isDigit = false from rfl) (by decide) hread]
  have htime : readTime (ds ++ '\n' :: rest) = none := by
    unfold readTime
    cases hread : fixedDigits 2 0 23 (ds ++ '\n' :: rest) with
    | none => rfl
    | some read =>
      simp [expect_of_fixedDigits h (show ':'.isDigit = false from rfl) (by decide) hread]
  rw [readDate?, hday, htime]

/-- The proof keeps the range closed: its bounds are too great to be worked out. -/
theorem readDecimal_digits (hne : ds ≠ []) (h : ∀ c ∈ ds, c.isDigit = true)
    (hzero : ds.head? = some '0' → ds = ['0'])
    (hrange : inRange (ofDigits 10 (ds.map digitValue)) = true) (rest : List Char) :
    readDecimal false (ds ++ '\n' :: rest) =
      some (.integer (ofDigits 10 (ds.map digitValue)), '\n' :: rest) := by
  obtain ⟨fits, hfits⟩ : ∃ fits, fits = inRange := ⟨_, rfl⟩
  rw [← hfits] at hrange
  rw [readDecimal, wholeDigits_digits hne h hzero, ← hfits]
  simp [hrange]

theorem readScalar_digits (hne : ds ≠ []) (h : ∀ c ∈ ds, c.isDigit = true)
    (hzero : ds.head? = some '0' → ds = ['0'])
    (hrange : inRange (ofDigits 10 (ds.map digitValue)) = true) (rest : List Char) :
    readScalar (ds ++ '\n' :: rest) =
      some (.integer (ofDigits 10 (ds.map digitValue)), '\n' :: rest) := by
  have hdecimal := readDecimal_digits hne h hzero hrange rest
  obtain ⟨d, more, rfl⟩ := List.exists_cons_of_ne_nil hne
  have hd : d.isDigit = true := h d List.mem_cons_self
  have hbase : ∀ mark after, mark ≠ '\n' → d :: more ++ '\n' :: rest ≠ '0' :: mark :: after := by
    intro mark after hmark heq
    rw [List.cons_append, List.cons.injEq] at heq
    obtain ⟨rfl, heq⟩ := heq
    cases hzero rfl
    exact hmark (List.cons.inj heq).1.symm
  have hother : d ≠ '+' ∧ d ≠ '-' ∧ d ≠ 'i' ∧ d ≠ 'n' := by
    refine ⟨?_, ?_, ?_, ?_⟩ <;> rintro rfl <;> cases hd
  rw [readScalar.eq_4 _ (fun _ => hbase _ _ (by decide)) (fun _ => hbase _ _ (by decide))
    (fun _ => hbase _ _ (by decide)), readDate?_digits h]
  simpa [readSign, hother] using hdecimal

end Digits

theorem ofDigits_toDigits (n : Nat) : ofDigits 10 ((Nat.toDigits 10 n).map digitValue) = n := by
  have hback := Nat.ofDigitChars_ten_toDigits (n := n)
  rw [ofDigits, List.foldl_map]
  simp only [Nat.ofDigitChars, Nat.mul_comm 10] at hback
  exact hback

/-- The digits of a number start with a zero only for zero itself. -/
theorem toDigits_of_head (n : Nat) (h : (Nat.toDigits 10 n).head? = some '0') :
    Nat.toDigits 10 n = ['0'] := by
  rcases Nat.lt_or_ge n 10 with hlt | hge
  · rw [Nat.toDigits_of_lt_base hlt] at h ⊢
    rw [Option.some.inj h]
  · have hdigits := Nat.toDigits_of_base_le (by decide) hge
    obtain ⟨d, more, hfront⟩ : ∃ d more, Nat.toDigits 10 (n / 10) = d :: more :=
      List.exists_cons_of_ne_nil Nat.toDigits_ne_nil
    rw [hdigits, hfront] at h
    have hdiv : n / 10 = 0 := by
      rw [← ofDigits_toDigits (n / 10), toDigits_of_head (n / 10) (by rw [hfront]; exact h)]
      rfl
    omega

theorem readScalar_number {n : Nat} (h : n < 0x8000000000000000) (rest : List Char) :
    readScalar (Nat.toDigits 10 n ++ '\n' :: rest) = some (.integer n, '\n' :: rest) := by
  have hrange : inRange (ofDigits 10 ((Nat.toDigits 10 n).map digitValue)) = true := by
    rw [ofDigits_toDigits, inRange, Bool.and_eq_true, decide_eq_true_eq, decide_eq_true_eq]
    omega
  have hread := readScalar_digits Nat.toDigits_ne_nil
    (fun c hc => Nat.isDigit_of_mem_toDigits (by decide) (by decide) hc) (toDigits_of_head n)
    hrange rest
  rwa [ofDigits_toDigits] at hread

/-! ## Values -/

/-- A value is read back from what was written for it, up to the end of the line. -/
structure Shows (value : Toml) (written : List Char) : Prop where
  front : ∃ c more, written = c :: more ∧ isSpace c = false
  read : ∀ rest, readValue maxNesting (written ++ '\n' :: rest) = some (value, '\n' :: rest)

theorem shows_text (cs : List Char) : Shows (.text (String.ofList cs)) (quoteText cs) := by
  obtain ⟨mark, more, hform, hmark⟩ := exists_quoteText cs
  refine ⟨⟨mark, more, hform, by rcases hmark with rfl | rfl <;> rfl⟩, fun rest => ?_⟩
  have hread : readAnyText (quoteText cs ++ '\n' :: rest) = some (cs, '\n' :: rest) :=
    readAnyText_quoteText cs (by simp)
  rw [hform, List.cons_append] at hread ⊢
  rcases hmark with rfl | rfl <;> simp [readValue, hread]

theorem shows_number {n : Nat} (h : n < 0x8000000000000000) :
    Shows (.integer n) (Nat.toDigits 10 n) := by
  obtain ⟨d, more, hform⟩ : ∃ d more, Nat.toDigits 10 n = d :: more :=
    List.exists_cons_of_ne_nil Nat.toDigits_ne_nil
  have hd : d.isDigit = true :=
    Nat.isDigit_of_mem_toDigits (by decide) (by decide) (hform ▸ List.mem_cons_self)
  have hother : d ≠ '[' ∧ d ≠ '{' ∧ d ≠ 't' ∧ d ≠ 'f' ∧ d ≠ '"' ∧ d ≠ '\'' ∧ d ≠ ' ' ∧
      d ≠ '\t' := by
    refine ⟨?_, ?_, ?_, ?_, ?_, ?_, ?_, ?_⟩ <;> rintro rfl <;> cases hd
  refine ⟨⟨d, more, hform, by simp [isSpace, hother]⟩, fun rest => ?_⟩
  have hread := readScalar_number h rest
  rw [hform, List.cons_append] at hread ⊢
  simp [readValue, hother, hread, ofScalar]

theorem shows_true : Shows (.boolean true) "true".toList :=
  ⟨⟨'t', _, rfl, rfl⟩, fun _ => by simp [readValue]⟩

theorem shows_false : Shows (.boolean false) "false".toList :=
  ⟨⟨'f', _, rfl, rfl⟩, fun _ => by simp [readValue]⟩

/-! ## Lines -/

/-- A line that is read as a statement, and not passed over for a blank or a comment. -/
structure Line (statement : Statement) (written : List Char) : Prop where
  front : ∃ c more, written = c :: more ∧ isSpace c = false ∧ c ≠ '#' ∧ c ≠ '\n' ∧ c ≠ '\r'
  read : ∀ rest, readStatement (written ++ rest) = some (statement, rest)

/-- A key stands without quotes. -/
def isBareKey (key : List Char) : Bool := !key.isEmpty && key.all isBare

section Keys

variable {key rest : List Char}

theorem isBareKey_iff : isBareKey key = true ↔ key ≠ [] ∧ ∀ c ∈ key, isBare c = true := by
  simp [isBareKey]

theorem ne_of_isBare {c : Char} (h : isBare c = true) :
    isSpace c = false ∧ c ≠ '#' ∧ c ≠ '\n' ∧ c ≠ '\r' ∧ c ≠ '[' ∧ c ≠ '"' ∧ c ≠ '\'' := by
  have hspace : c ≠ ' ' ∧ c ≠ '\t' := by
    constructor <;> rintro rfl <;> cases h
  refine ⟨by simp [isSpace, hspace], ?_, ?_, ?_, ?_, ?_, ?_⟩ <;> rintro rfl <;> cases h

theorem skipSpace_of_front {c : Char} (h : isSpace c = false) (rest : List Char) :
    skipSpace (c :: rest) = c :: rest :=
  List.dropWhile_cons_of_neg (by simp [h])

/-- A key ends at the first character that no key has. -/
theorem readKeyPart_bare (h : isBareKey key = true) {c : Char} (hc : isBare c = false) :
    readKeyPart (key ++ c :: rest) = some (String.ofList key, c :: rest) := by
  obtain ⟨hne, hbare⟩ := isBareKey_iff.1 h
  have htake : (key ++ c :: rest).takeWhile isBare = key := by
    rw [List.takeWhile_append_of_pos hbare, List.takeWhile_cons_of_neg (by simp [hc]),
      List.append_nil]
  have hdrop : (key ++ c :: rest).dropWhile isBare = c :: rest := by
    rw [List.dropWhile_append_of_pos hbare, List.dropWhile_cons_of_neg (by simp [hc])]
  obtain ⟨d, more, rfl⟩ := List.exists_cons_of_ne_nil hne
  obtain ⟨-, -, -, -, -, hquote, happ⟩ := ne_of_isBare (hbare d List.mem_cons_self)
  rw [readKeyPart.eq_3 _ (by simp [hquote]) (by simp [happ]), htake, hdrop]
  simp

theorem readKey_bare (h : isBareKey key = true) {c : Char} (hc : isBare c = false)
    (hspace : isSpace c = false) (hdot : c ≠ '.') (spaces : List Char)
    (hspaces : ∀ d ∈ spaces, isSpace d = true) :
    readKey maxNesting (key ++ (spaces ++ c :: rest)) =
      some ([String.ofList key], c :: rest) := by
  have hpart : readKeyPart (key ++ (spaces ++ c :: rest)) =
      some (String.ofList key, spaces ++ c :: rest) := by
    cases spaces with
    | nil => exact readKeyPart_bare h hc
    | cons d more =>
      refine readKeyPart_bare h (Bool.eq_false_iff.2 fun hd => ?_)
      exact absurd (hspaces d List.mem_cons_self) (by simp [(ne_of_isBare hd).1])
  have hskip : skipSpace (spaces ++ c :: rest) = c :: rest := by
    rw [skipSpace, List.dropWhile_append_of_pos hspaces]
    exact skipSpace_of_front hspace rest
  obtain ⟨d, more, rfl⟩ := List.exists_cons_of_ne_nil (isBareKey_iff.1 h).1
  have hfront := (ne_of_isBare ((isBareKey_iff.1 h).2 d List.mem_cons_self)).1
  rw [maxNesting, readKey.eq_2, List.cons_append, skipSpace_of_front hfront, ← List.cons_append,
    hpart]
  simp [hskip, hdot]

theorem finishLine?_newline (rest : List Char) : finishLine? ('\n' :: rest) = some rest := rfl

/-- The header of a table. -/
theorem line_header (h : isBareKey key = true) :
    Line (.table [String.ofList key]) ('[' :: key ++ [']', '\n']) := by
  refine ⟨⟨'[', _, rfl, rfl, by decide⟩, fun rest => ?_⟩
  have hkey : readKey maxNesting (key ++ ']' :: '\n' :: rest) = _ :=
    readKey_bare h rfl rfl (by decide) [] (by simp)
  obtain ⟨d, more, rfl⟩ := List.exists_cons_of_ne_nil (isBareKey_iff.1 h).1
  obtain ⟨-, -, -, -, hopen, -⟩ := ne_of_isBare ((isBareKey_iff.1 h).2 d List.mem_cons_self)
  have hform : '[' :: (d :: more) ++ [']', '\n'] ++ rest =
      '[' :: (d :: more ++ ']' :: '\n' :: rest) := by simp
  rw [hform, readStatement.eq_2 _ (by simp [hopen]), hkey]
  simp [expect, finishLine?_newline]

/-- A key with its value. -/
theorem line_pair (h : isBareKey key = true) {value : Toml} {written : List Char}
    (hvalue : Shows value written) :
    Line (.pair [String.ofList key] value) (key ++ " = ".toList ++ written ++ ['\n']) := by
  obtain ⟨⟨c, after, hwritten, hspace⟩, hread⟩ := hvalue
  obtain ⟨d, more, hd⟩ := List.exists_cons_of_ne_nil (isBareKey_iff.1 h).1
  obtain ⟨hfront, hhash, hline, hreturn, hopen, -⟩ :=
    ne_of_isBare ((isBareKey_iff.1 h).2 d (hd ▸ List.mem_cons_self))
  refine ⟨⟨d, _, by rw [hd]; rfl, hfront, hhash, hline, hreturn⟩, fun rest => ?_⟩
  have hkey : readKey maxNesting (key ++ ([' '] ++ '=' :: ' ' :: (written ++ '\n' :: rest))) = _ :=
    readKey_bare h rfl rfl (by decide) [' '] (by simp [isSpace])
  have hform : key ++ " = ".toList ++ written ++ ['\n'] ++ rest =
      key ++ ([' '] ++ '=' :: ' ' :: (written ++ '\n' :: rest)) := by simp
  have hskip : skipSpace (' ' :: (written ++ '\n' :: rest)) = written ++ '\n' :: rest := by
    rw [hwritten]
    exact skipSpace_of_front hspace _
  rw [hform, readStatement.eq_3 _ (by simp [hd, hopen]) (by simp [hd, hopen]), readPair, hkey]
  simp [expect, hskip, hread, finishLine?_newline]

end Keys

/-! ## Documents -/

/-- A document of lines and of line breaks between them, with its statements. -/
inductive Document : List Char → List Statement → Prop
  | nil : Document [] []
  | blank {cs : List Char} {statements : List Statement} (h : Document cs statements) :
      Document ('\n' :: cs) statements
  | line {statement : Statement} {written cs : List Char} {statements : List Statement}
      (hline : Line statement written) (h : Document cs statements) :
      Document (written ++ cs) (statement :: statements)

theorem Document.single {statement : Statement} {written : List Char}
    (hline : Line statement written) : Document written [statement] := by
  simpa using Document.line hline .nil

theorem Document.append {before after : List Char} {earlier later : List Statement}
    (hbefore : Document before earlier) (hafter : Document after later) :
    Document (before ++ after) (earlier ++ later) := by
  induction hbefore with
  | nil => exact hafter
  | blank h ih => exact .blank ih
  | line hline h ih =>
    rw [List.append_assoc]
    exact .line hline ih

theorem Document.readStatements_eq {cs : List Char} {statements : List Statement}
    (h : Document cs statements) :
    ∀ {fuel : Nat}, cs.length < fuel → readStatements fuel cs = some statements := by
  induction h with
  | nil =>
    intro fuel hfuel
    obtain ⟨fuel, rfl⟩ := Nat.exists_eq_add_one.2 hfuel
    rfl
  | @blank cs statements h ih =>
    intro fuel hfuel
    obtain ⟨fuel, rfl⟩ := Nat.exists_eq_add_one.2 (Nat.zero_lt_of_lt hfuel)
    exact ih (by simpa using hfuel)
  | @line statement written cs statements hline h ih =>
    intro fuel hfuel
    obtain ⟨fuel, rfl⟩ := Nat.exists_eq_add_one.2 (Nat.zero_lt_of_lt hfuel)
    obtain ⟨⟨c, more, rfl, hspace, hhash, hbreak, hreturn⟩, hread⟩ := hline
    have hrest : readStatements fuel cs = some statements := by
      rw [List.cons_append, List.length_cons, List.length_append] at hfuel
      exact ih (by omega)
    have hstatement := hread cs
    rw [List.cons_append] at hstatement ⊢
    simp [readStatements, skipSpace_of_front hspace, hhash, hbreak, hreturn, hstatement, hrest]

theorem ofChars?_of_document {cs : List Char} {statements : List Statement}
    (h : Document cs statements) (hmark : cs.head? ≠ some byteOrderMark) :
    ofChars? cs = (statements.foldlM Progress.carryOut {}).map Progress.root := by
  have hwithout : withoutMark cs = cs := by
    cases cs with
    | nil => rfl
    | cons c more => exact if_neg fun hc => hmark (congrArg some hc)
  rw [ofChars?, hwithout, h.readStatements_eq (Nat.lt_succ_self _), Option.bind_eq_bind,
    Option.bind_some]
  exact Option.map_eq_bind.symm

/-! ## Tables -/

namespace Entries

variable {es later : Entries} {key : String}

theorem put_of_get?_eq_none (h : es.get? key = none) (value : Toml) (later : Entries) :
    put key value (es ++ later) = es ++ put key value later := by
  induction es with
  | nil => rfl
  | cons e es ih =>
    rw [get?, List.lookup_cons] at h
    by_cases hkey : key == e.1
    · simp [hkey] at h
    · simp only [hkey] at h
      have hne : ¬ e.1 = key := fun heq => hkey (by simp [heq])
      rw [List.cons_append, put, if_neg hne, ih h, List.cons_append]

theorem get?_append (h : es.get? key = none) (value : Toml) :
    get? (es ++ [(key, value)]) key = some value := by
  rw [get?, List.lookup_append, show es.lookup key = none from h]
  simp

theorem get?_eq_none_of_not_mem (h : key ∉ es.map Prod.fst) : es.get? key = none := by
  rw [get?, List.lookup_eq_none_iff]
  intro e he
  have hne : key ≠ e.1 := fun heq => h (heq ▸ List.mem_map_of_mem he)
  simpa using hne

end Entries

/-- The header of a table with the pairs under it. -/
def sectionOf (name : String) (es : Entries) : List Statement :=
  .table [name] :: es.map fun e => .pair [e.1] e.2

section Sections

variable {root : Entries} {opened : List String} {name : String}

theorem carryOut_pairs (hname : root.get? name = none) : ∀ earlier es : Entries,
    ((earlier ++ es).map Prod.fst).Nodup →
    (es.map fun e => Statement.pair [e.1] e.2).foldlM Progress.carryOut
        ⟨root ++ [(name, .table .header earlier)], [name]⟩ =
      some ⟨root ++ [(name, .table .header (earlier ++ es))], [name]⟩
  | earlier, [], _ => by simp
  | earlier, e :: es, h => by
    have hfresh : Entries.get? earlier e.1 = none := by
      refine Entries.get?_eq_none_of_not_mem fun hmem => ?_
      rw [List.map_append, List.nodup_append] at h
      exact h.2.2 _ hmem _ List.mem_cons_self rfl
    have hstep : Progress.carryOut ⟨root ++ [(name, .table .header earlier)], [name]⟩
        (.pair [e.1] e.2) =
          some ⟨root ++ [(name, .table .header (earlier ++ [e]))], [name]⟩ := by
      simp [Progress.carryOut, Entries.within, Entries.get?_append hname, assignKey,
        Entries.assign, hfresh, Entries.put_of_get?_eq_none hname, Entries.put]
    have hrest := carryOut_pairs hname (earlier ++ [e]) es (by simpa using h)
    rw [List.map_cons, List.foldlM_cons, hstep, Option.bind_eq_bind, Option.bind_some, hrest,
      List.append_assoc]
    rfl

/-- A new section adds its table at the end. -/
theorem carryOut_sectionOf (hname : root.get? name = none) {es : Entries}
    (h : (es.map Prod.fst).Nodup) :
    (sectionOf name es).foldlM Progress.carryOut ⟨root, opened⟩ =
      some ⟨root ++ [(name, .table .header es)], [name]⟩ := by
  have hopen : Progress.carryOut ⟨root, opened⟩ (.table [name]) =
      some ⟨root ++ [(name, .table .header [])], [name]⟩ := by
    have hput := Entries.put_of_get?_eq_none hname (.table .header []) []
    rw [List.append_nil] at hput
    simp [Progress.carryOut, Entries.place, hname, openTable, hput, Entries.put]
  rw [sectionOf, List.foldlM_cons, hopen, Option.bind_eq_bind, Option.bind_some]
  exact carryOut_pairs hname [] es h

/-- Sections of different names, each with different keys, are read as their tables in order. -/
theorem carryOut_sections : ∀ (sections : List (String × Entries)) (root : Entries)
    (opened : List String), (root.map Prod.fst ++ sections.map Prod.fst).Nodup →
    (∀ s ∈ sections, (s.2.map Prod.fst).Nodup) →
    ((sections.flatMap fun s => sectionOf s.1 s.2).foldlM Progress.carryOut ⟨root, opened⟩).map
        Progress.root =
      some (root ++ sections.map fun s => (s.1, .table .header s.2))
  | [], root, opened, _, _ => by simp
  | s :: sections, root, opened, hnames, hkeys => by
    obtain ⟨hs, hsections⟩ := List.forall_mem_cons.1 hkeys
    have hfresh : root.get? s.1 = none := by
      refine Entries.get?_eq_none_of_not_mem fun hmem => ?_
      exact (List.nodup_append.1 hnames).2.2 _ hmem _ List.mem_cons_self rfl
    have hrest := carryOut_sections sections (root ++ [(s.1, .table .header s.2)]) [s.1]
      (by simpa using hnames) hsections
    rw [List.flatMap_cons, List.foldlM_append, carryOut_sectionOf hfresh hs, Option.bind_eq_bind,
      Option.bind_some, hrest]
    simp

end Sections

end SealedText.Toml
