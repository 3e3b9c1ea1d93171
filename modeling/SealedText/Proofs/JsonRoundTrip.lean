import Mathlib.Tactic.SplitIfs
import SealedText.Json.Reader

/-!
# JSON reads back what it writes

A text is escaped character by character, and each character is one piece again when it is read
(`readText_escaped`). Values follow, with their lists of items and members, by recursion on the
fuel: a value that is written in `n` characters is read with fuel `n`. Numbers are left out, since
they are kept as they were written and need not be numbers at all.
-/

namespace SealedText.Json

/-! ## Texts -/

theorem readPieces_plain {c : Char} (hquote : c ≠ '"') (hslash : c ≠ '\\') (hlow : ¬ c.toNat < 32)
    (rest : List Char) :
    readPieces (c :: rest) = (readPieces rest).map fun p => (.char c :: p.1, p.2) := by
  rw [readPieces.eq_5 c rest hquote (fun _ _ _ _ _ h _ => hslash h) (fun _ _ h _ => hslash h),
    if_neg (not_or.2 ⟨hslash, hlow⟩)]
  cases readPieces rest <;> rfl

theorem readPieces_escaped {letter c : Char} (hletter : letter ≠ 'u')
    (hescaped : escaped? letter = some c) (rest : List Char) :
    readPieces ('\\' :: letter :: rest) = (readPieces rest).map fun p => (.char c :: p.1, p.2) := by
  rw [readPieces.eq_4 letter rest (fun _ _ _ _ _ h _ => hletter h), hescaped]
  cases readPieces rest <;> rfl

theorem unit?_digits : ∀ n < 32,
    unit? '0' '0' (Nat.digitChar (n / 16)) (Nat.digitChar (n % 16)) = some n := by
  decide

theorem readPieces_control {c : Char} (hlow : c.toNat < 32) (rest : List Char) :
    readPieces ('\\' :: 'u' :: '0' :: '0' :: Nat.digitChar (c.toNat / 16) ::
        Nat.digitChar (c.toNat % 16) :: rest) =
      (readPieces rest).map fun p => (.unit c.toNat :: p.1, p.2) := by
  rw [readPieces.eq_3, unit?_digits _ hlow]
  cases readPieces rest <;> rfl

theorem joinPieces_control {c : Char} (hlow : c.toNat < 32) (pieces : List Piece) :
    joinPieces (.unit c.toNat :: pieces) = (joinPieces pieces).map (c :: ·) := by
  have hhigh : ¬ isHighHalf c.toNat = true := by
    simp only [isHighHalf, Bool.and_eq_true, decide_eq_true_eq]
    omega
  have hhalf : ¬ isLowHalf c.toNat = true := by
    simp only [isLowHalf, Bool.and_eq_true, decide_eq_true_eq]
    omega
  rw [joinPieces.eq_def]
  simp only [if_neg hhigh, if_neg hhalf, Char.ofNat_toNat]

/-- Every character is read back as one piece. -/
theorem exists_piece (c : Char) : ∃ piece,
    (∀ rest, readPieces (escapeChar c ++ rest) =
      (readPieces rest).map fun p => (piece :: p.1, p.2)) ∧
    ∀ pieces, joinPieces (piece :: pieces) = (joinPieces pieces).map (c :: ·) := by
  unfold escapeChar
  split_ifs with hquote hslash hback hfeed hline hreturn htab hlow
  · exact ⟨.char c, readPieces_escaped (by decide) (by rw [hquote]; rfl), fun _ => rfl⟩
  · exact ⟨.char c, readPieces_escaped (by decide) (by rw [hslash]; rfl), fun _ => rfl⟩
  · exact ⟨.char c, readPieces_escaped (by decide) (by rw [hback]; rfl), fun _ => rfl⟩
  · exact ⟨.char c, readPieces_escaped (by decide) (by rw [hfeed]; rfl), fun _ => rfl⟩
  · exact ⟨.char c, readPieces_escaped (by decide) (by rw [hline]; rfl), fun _ => rfl⟩
  · exact ⟨.char c, readPieces_escaped (by decide) (by rw [hreturn]; rfl), fun _ => rfl⟩
  · exact ⟨.char c, readPieces_escaped (by decide) (by rw [htab]; rfl), fun _ => rfl⟩
  · exact ⟨.unit c.toNat, readPieces_control hlow, joinPieces_control hlow⟩
  · exact ⟨.char c, readPieces_plain hquote hslash hlow, fun _ => rfl⟩

theorem exists_pieces : ∀ cs rest : List Char, ∃ pieces,
    readPieces (cs.flatMap escapeChar ++ '"' :: rest) = some (pieces, rest) ∧
      joinPieces pieces = some cs
  | [], rest => ⟨[], readPieces.eq_2 rest, rfl⟩
  | c :: cs, rest => by
    obtain ⟨piece, hread, hjoin⟩ := exists_piece c
    obtain ⟨pieces, hpieces, hcs⟩ := exists_pieces cs rest
    refine ⟨piece :: pieces, ?_, ?_⟩
    · rw [List.flatMap_cons, List.append_assoc, hread, hpieces]
      rfl
    · rw [hjoin, hcs]
      rfl

theorem readText_escaped (s : String) (rest : List Char) :
    readText (s.toList.flatMap escapeChar ++ '"' :: rest) = some (some s, rest) := by
  obtain ⟨pieces, hread, hjoin⟩ := exists_pieces s.toList rest
  rw [readText, hread]
  change some ((joinPieces pieces).map String.ofList, rest) = _
  rw [hjoin, Option.map_some, String.ofList_toList]

theorem renderText_append (s : String) (rest : List Char) :
    renderText (some s) ++ rest = '"' :: (s.toList.flatMap escapeChar ++ '"' :: rest) := by
  simp [renderText]

/-! ## Values -/

/-- No part of the value is a number, and every text in it can be held by a string. -/
inductive Plain : Json → Prop
  | null : Plain .null
  | bool (b : Bool) : Plain (.bool b)
  | text (s : String) : Plain (.text (some s))
  | array {items : List Json} (h : ∀ item ∈ items, Plain item) : Plain (.array items)
  | object {members : List (Option String × Json)}
      (hkeys : ∀ m ∈ members, ∃ key, m.1 = some key) (h : ∀ m ∈ members, Plain m.2) :
      Plain (.object members)

theorem skipSpace_of_not_isSpace {c : Char} (h : isSpace c = false) (rest : List Char) :
    skipSpace (c :: rest) = c :: rest :=
  List.dropWhile_cons_of_neg (by rw [h]; exact Bool.false_ne_true)

theorem skipSpace_breakLine (depth : Nat) (rest : List Char) :
    skipSpace (breakLine depth ++ rest) = skipSpace rest := by
  have hspaces : ∀ n, skipSpace (List.replicate n ' ' ++ rest) = skipSpace rest := by
    intro n
    induction n with
    | zero => rfl
    | succ n ih =>
      rw [List.replicate_succ, List.cons_append]
      exact ih
  exact hspaces (2 * depth)

/-- What a value starts with: no blank, and no bracket that closes. -/
theorem Plain.exists_head {j : Json} (h : Plain j) (depth : Nat) :
    ∃ c rest, render depth j = c :: rest ∧ isSpace c = false ∧ c ≠ ']' := by
  cases h with
  | null => exact ⟨'n', _, rfl, rfl, by decide⟩
  | bool b => cases b <;> exact ⟨_, _, rfl, rfl, by decide⟩
  | text s => exact ⟨'"', _, rfl, rfl, by decide⟩
  | @array items _ => cases items <;> exact ⟨'[', _, rfl, rfl, by decide⟩
  | @object members _ _ => cases members <;> exact ⟨'{', _, rfl, rfl, by decide⟩

theorem Plain.length_pos {j : Json} (h : Plain j) (depth : Nat) :
    0 < (render depth j).length := by
  obtain ⟨c, rest, hhead, -⟩ := h.exists_head depth
  rw [hhead]
  exact Nat.succ_pos _

theorem readValue_of_skipSpace {n : Nat} {cs cs' : List Char} (h : skipSpace cs = skipSpace cs') :
    readValue n cs = readValue n cs' := by
  cases n with
  | zero => rfl
  | succ n => rw [readValue.eq_2, readValue.eq_2, h]

theorem readValue_space (n : Nat) (cs : List Char) : readValue n (' ' :: cs) = readValue n cs :=
  readValue_of_skipSpace rfl

theorem readItems_of_skipSpace {n : Nat} {cs cs' : List Char} (h : skipSpace cs = skipSpace cs') :
    readItems n cs = readItems n cs' := by
  cases n with
  | zero => rfl
  | succ n =>
    rw [readItems.eq_2, readItems.eq_2, readValue_of_skipSpace h]

theorem readMembers_of_skipSpace {n : Nat} {cs cs' : List Char}
    (h : skipSpace cs = skipSpace cs') : readMembers n cs = readMembers n cs' := by
  cases n with
  | zero => rfl
  | succ n => rw [readMembers.eq_2, readMembers.eq_2, h]

theorem readValue_array {n : Nat} {c : Char} {cs rest : List Char} {items : List Json}
    (hspace : isSpace c = false) (hclose : c ≠ ']')
    (hitems : readItems n (c :: cs) = some (items, rest)) (depth : Nat) :
    readValue (n + 1) ('[' :: (breakLine depth ++ c :: cs)) = some (.array items, rest) := by
  rw [readValue.eq_2, skipSpace_of_not_isSpace rfl]
  simp only [skipSpace_breakLine, skipSpace_of_not_isSpace hspace]
  split
  · rename_i h
    exact absurd (List.cons.inj h).1 hclose
  · rw [hitems]
    rfl

theorem readValue_object {n : Nat} {cs rest : List Char} {members : List (Option String × Json)}
    (hmembers : readMembers n ('"' :: cs) = some (members, rest)) (depth : Nat) :
    readValue (n + 1) ('{' :: (breakLine depth ++ '"' :: cs)) = some (.object members, rest) := by
  rw [readValue.eq_2, skipSpace_of_not_isSpace rfl]
  simp only [skipSpace_breakLine, skipSpace_of_not_isSpace (show isSpace '"' = false from rfl)]
  split
  · rename_i h
    exact absurd (List.cons.inj h).1 (by decide)
  · rw [hmembers]
    rfl

theorem readItems_last {n : Nat} {cs rest : List Char} {item : Json} {close : Nat}
    (hitem : readValue n cs = some (item, breakLine close ++ ']' :: rest)) :
    readItems (n + 1) cs = some ([item], rest) := by
  rw [readItems.eq_2, hitem]
  simp only [Option.bind_eq_bind, Option.bind_some, skipSpace_breakLine,
    skipSpace_of_not_isSpace (show isSpace ']' = false from rfl)]
  rfl

theorem readItems_cons {n : Nat} {cs more rest : List Char} {item : Json} {items : List Json}
    (hitem : readValue n cs = some (item, ',' :: more))
    (hitems : readItems n more = some (items, rest)) :
    readItems (n + 1) cs = some (item :: items, rest) := by
  rw [readItems.eq_2, hitem]
  simp only [Option.bind_eq_bind, Option.bind_some,
    skipSpace_of_not_isSpace (show isSpace ',' = false from rfl), hitems]
  rfl

theorem readMembers_last {n : Nat} {cs rest : List Char} {value : Json} {close : Nat}
    (hvalue : readValue n cs = some (value, breakLine close ++ '}' :: rest)) (key : String) :
    readMembers (n + 1) (renderText (some key) ++ ':' :: ' ' :: cs) =
      some ([(some key, value)], rest) := by
  rw [renderText_append, readMembers.eq_2, skipSpace_of_not_isSpace rfl]
  simp only [readText_escaped, Option.bind_eq_bind, Option.bind_some, readValue_space, hvalue,
    skipSpace_breakLine, skipSpace_of_not_isSpace (show isSpace ':' = false from rfl),
    skipSpace_of_not_isSpace (show isSpace '}' = false from rfl)]
  rfl

theorem readMembers_cons {n : Nat} {cs more rest : List Char} {value : Json}
    {members : List (Option String × Json)} (hvalue : readValue n cs = some (value, ',' :: more))
    (hmembers : readMembers n more = some (members, rest)) (key : String) :
    readMembers (n + 1) (renderText (some key) ++ ':' :: ' ' :: cs) =
      some ((some key, value) :: members, rest) := by
  rw [renderText_append, readMembers.eq_2, skipSpace_of_not_isSpace rfl]
  simp only [readText_escaped, Option.bind_eq_bind, Option.bind_some, readValue_space, hvalue,
    skipSpace_of_not_isSpace (show isSpace ':' = false from rfl),
    skipSpace_of_not_isSpace (show isSpace ',' = false from rfl), hmembers]
  rfl

/-! ## Reading back -/

mutual

theorem readValue_render : ∀ (n : Nat) {j : Json}, Plain j → ∀ (depth : Nat) (rest : List Char),
    (render depth j).length ≤ n → readValue n (render depth j ++ rest) = some (j, rest)
  | 0, j, h, depth, rest, hn => by
    have hpos := h.length_pos depth
    omega
  | n + 1, .null, _, depth, rest, _ => by
    rw [render, readValue.eq_2]
    rfl
  | n + 1, .bool true, _, depth, rest, _ => by
    rw [render, readValue.eq_2]
    rfl
  | n + 1, .bool false, _, depth, rest, _ => by
    rw [render, readValue.eq_2]
    rfl
  | n + 1, .number literal, h, depth, rest, _ => nomatch h
  | n + 1, .text none, h, depth, rest, _ => nomatch h
  | n + 1, .text (some s), _, depth, rest, _ => by
    rw [render, renderText_append, readValue.eq_2, skipSpace_of_not_isSpace rfl]
    simp only [readText_escaped]
    rfl
  | n + 1, .array [], _, depth, rest, _ => by
    rw [render, readValue.eq_2]
    rfl
  | n + 1, .array (item :: items), .array h, depth, rest, hn => by
    obtain ⟨hitem, hitems⟩ := List.forall_mem_cons.1 h
    simp only [render, List.length_append, List.length_cons] at hn
    have hread := readItems_render n hitem hitems (depth + 1) depth rest (by
      rw [List.length_append]
      omega)
    obtain ⟨c, more, hhead, hspace, hclose⟩ := hitem.exists_head (depth + 1)
    rw [hhead] at hread
    simp only [List.cons_append] at hread
    simp only [render, hhead, List.cons_append, List.append_assoc, List.nil_append] at hread ⊢
    exact readValue_array hspace hclose hread (depth + 1)
  | n + 1, .object [], _, depth, rest, _ => by
    rw [render, readValue.eq_2]
    rfl
  | n + 1, .object ((key, value) :: members), .object hkeys h, depth, rest, hn => by
    obtain ⟨⟨name, hname⟩, hothers⟩ := List.forall_mem_cons.1 hkeys
    obtain ⟨hvalue, hmembers⟩ := List.forall_mem_cons.1 h
    simp only at hname hvalue
    subst hname
    simp only [render, List.length_append, List.length_cons] at hn
    have hread := readMembers_render n hvalue hothers hmembers name (depth + 1) depth rest (by
      rw [List.length_append]
      omega)
    simp only [render, renderText_append, List.cons_append, List.append_assoc, List.nil_append]
      at hread ⊢
    exact readValue_object hread (depth + 1)

/-- Each item takes a character at least, so the fuel left by one is enough for the others. -/
theorem readItems_render : ∀ (n : Nat) {item : Json} {items : List Json}, Plain item →
    (∀ i ∈ items, Plain i) → ∀ (depth close : Nat) (rest : List Char),
      (render depth item ++ renderItems depth items).length < n →
      readItems n (render depth item ++ renderItems depth items ++ breakLine close ++ ']' :: rest) =
        some (item :: items, rest)
  | 0, _, _, _, _, _, _, _, hn => absurd hn (Nat.not_lt_zero _)
  | n + 1, item, [], hitem, _, depth, close, rest, hn => by
    rw [renderItems, List.append_nil] at hn ⊢
    rw [List.append_assoc]
    exact readItems_last (readValue_render n hitem depth _ (Nat.le_of_lt_succ hn))
  | n + 1, item, next :: items, hitem, hitems, depth, close, rest, hn => by
    obtain ⟨hnext, hitems⟩ := List.forall_mem_cons.1 hitems
    have hpos := hitem.length_pos depth
    simp only [renderItems, List.length_append, List.length_cons] at hn
    have hfirst := readValue_render n hitem depth
      (',' :: (breakLine depth ++ (render depth next ++ renderItems depth items ++
        breakLine close ++ ']' :: rest))) (by omega)
    have hrest := readItems_render n hnext hitems depth close rest (by
      rw [List.length_append]
      omega)
    rw [← readItems_of_skipSpace (skipSpace_breakLine depth _)] at hrest
    simp only [renderItems, List.append_assoc, List.cons_append] at hfirst hrest ⊢
    exact readItems_cons hfirst hrest

theorem readMembers_render : ∀ (n : Nat) {value : Json} {members : List (Option String × Json)},
    Plain value → (∀ m ∈ members, ∃ key, m.1 = some key) → (∀ m ∈ members, Plain m.2) →
    ∀ (key : String) (depth close : Nat) (rest : List Char),
      (render depth value ++ renderMembers depth members).length < n →
      readMembers n (renderText (some key) ++ [':', ' '] ++ render depth value ++
        renderMembers depth members ++ breakLine close ++ '}' :: rest) =
        some ((some key, value) :: members, rest)
  | 0, _, _, _, _, _, _, _, _, _, hn => absurd hn (Nat.not_lt_zero _)
  | n + 1, value, [], hvalue, _, _, key, depth, close, rest, hn => by
    rw [renderMembers, List.append_nil] at hn ⊢
    have hread := readValue_render n hvalue depth (breakLine close ++ '}' :: rest)
      (Nat.le_of_lt_succ hn)
    simp only [List.append_assoc, List.cons_append, List.nil_append]
    exact readMembers_last hread key
  | n + 1, value, (next, content) :: members, hvalue, hkeys, hmembers, key, depth, close, rest,
      hn => by
    obtain ⟨⟨name, hname⟩, hothers⟩ := List.forall_mem_cons.1 hkeys
    obtain ⟨hcontent, hcontents⟩ := List.forall_mem_cons.1 hmembers
    simp only at hname hcontent
    subst hname
    have hpos := hvalue.length_pos depth
    simp only [renderMembers, List.length_append, List.length_cons] at hn
    have hfirst := readValue_render n hvalue depth
      (',' :: (breakLine depth ++ (renderText (some name) ++ [':', ' '] ++ render depth content ++
        renderMembers depth members ++ breakLine close ++ '}' :: rest))) (by omega)
    have hrest := readMembers_render n hcontent hothers hcontents name depth close rest (by
      rw [List.length_append]
      omega)
    rw [← readMembers_of_skipSpace (skipSpace_breakLine depth _)] at hrest
    simp only [renderMembers, List.append_assoc, List.cons_append, List.nil_append]
      at hfirst hrest ⊢
    exact readMembers_cons hfirst hrest key

end

/-- A document of texts, flags, lists and objects is read back as it was written. -/
theorem ofText?_toText {j : Json} (h : Plain j) : ofText? j.toText = some j := by
  have hread := readValue_render (2 * (render 0 j).length + 2) h 0 [] (by omega)
  rw [List.append_nil] at hread
  rw [ofText?, toText, String.toList_ofList, ofChars?, hread]
  rfl

end SealedText.Json
