import SealedText.Proofs.BareToken
import SealedText.Proofs.TextBytes
import SealedText.Proofs.TomlDocument

/-!
# Settings written and read back

Settings are written as four sections (`document_toChars`), and these sections are read as the same
settings if their numbers have no more than 32 bits (`ofToml?_sections`). Settings that come from a
file have such numbers and pass the check, and so do the ones that stand when there is no file. So
whatever was loaded is loaded again from the text that it is shown as.
-/

namespace SealedText.Settings

/-! ## Writing -/

/-- The sections that settings are written as, with their entries. -/
def sections (s : Settings) : List (String × Toml.Entries) :=
  [("log", [("level", .text s.log.level), ("format", .text s.log.format)]),
    ("kdf", [("iterations", .integer s.kdf.iterations),
      ("password_mode", .text s.kdf.stretchMode.label)]),
    ("transport", [("encoding", .text s.transport.encoding.label),
      ("wrap_url", .boolean s.transport.wrapped), ("url_prefix", .text s.transport.linkStart),
      ("compression_level", .integer s.transport.level)]),
    ("store", s.store.path.elim [] fun path => [("path", .text path)])]

section Lines

open Toml

theorem document_line {key : String} {value : Toml} {written : List Char}
    (h : isBareKey key.toList = true) (hvalue : Shows value written) :
    Document (line key written) [.pair [key] value] := by
  have hline := line_pair h hvalue
  rw [String.ofList_toList] at hline
  exact .single hline

theorem document_textLine {key : String} (h : isBareKey key.toList = true) (value : String) :
    Document (textLine key value) [.pair [key] (.text value)] := by
  have hvalue := shows_text value.toList
  rw [String.ofList_toList] at hvalue
  exact document_line h hvalue

theorem document_header (name : String) (h : isBareKey name.toList = true) :
    Document ('[' :: name.toList ++ [']', '\n']) [.table [name]] := by
  have hline := line_header h
  rw [String.ofList_toList] at hline
  exact .single hline

theorem shows_flagText (b : Bool) : Shows (.boolean b) (flagText b) := by
  cases b with
  | true => exact shows_true
  | false => exact shows_false

variable {s : Settings}

theorem document_toChars (hiterations : s.kdf.iterations < 0x100000000)
    (hlevel : s.transport.level < 0x100000000) :
    Document s.toChars (s.sections.flatMap fun e => sectionOf e.1 e.2) := by
  have hlog : Document "[log]\n".toList [.table ["log"]] := document_header "log" rfl
  have hkdf : Document "\n[kdf]\n".toList [.table ["kdf"]] := (document_header "kdf" rfl).blank
  have htransport : Document "\n[transport]\n".toList [.table ["transport"]] :=
    (document_header "transport" rfl).blank
  have hstore : Document "\n[store]\n".toList [.table ["store"]] :=
    (document_header "store" rfl).blank
  have hrounds : Shows (.integer s.kdf.iterations) (numberText s.kdf.iterations) :=
    shows_number (by omega)
  have hpacking : Shows (.integer s.transport.level) (numberText s.transport.level) :=
    shows_number (by omega)
  have hpath : Document (s.store.path.elim [] (textLine "path" ·))
      ((s.store.path.elim [] fun path => [("path", Toml.text path)]).map
        (fun e => .pair [e.1] e.2) ++ []) := by
    rw [List.append_nil]
    cases s.store.path with
    | none => exact .nil
    | some path => exact document_textLine rfl path
  exact hlog
    |>.append (document_textLine rfl s.log.level)
    |>.append (document_textLine rfl s.log.format)
    |>.append hkdf
    |>.append (document_line rfl hrounds)
    |>.append (document_textLine rfl s.kdf.stretchMode.label)
    |>.append htransport
    |>.append (document_textLine rfl s.transport.encoding.label)
    |>.append (document_line rfl (shows_flagText s.transport.wrapped))
    |>.append (document_textLine rfl s.transport.linkStart)
    |>.append (document_line rfl hpacking)
    |>.append hstore
    |>.append hpath

/-- What is written is read as one table for each section. -/
theorem ofText?_toText (hiterations : s.kdf.iterations < 0x100000000)
    (hlevel : s.transport.level < 0x100000000) :
    ofText? s.toText = some (s.sections.map fun e => (e.1, .table .header e.2)) := by
  have hkeys : ∀ e ∈ s.sections, (e.2.map Prod.fst).Nodup := by
    simp only [sections, List.forall_mem_cons]
    refine ⟨by simp, by simp, by simp, ?_, by simp⟩
    cases s.store.path <;> simp
  have hmark : s.toChars.head? ≠ some byteOrderMark := by
    rw [show s.toChars.head? = some '[' from rfl]
    decide
  rw [ofText?, toText, String.toList_ofList,
    ofChars?_of_document (document_toChars hiterations hlevel) hmark]
  exact carryOut_sections s.sections [] [] (by simp [sections]) hkeys

end Lines

/-! ## Reading -/

theorem mode?_label (mode : StretchMode) : mode? (.text mode.label) = some mode := by
  cases mode <;> rfl

theorem encoding?_label (e : TokenEncoding) : encoding? (.text e.label) = some e := by
  cases e <;> rfl

theorem count?_integer {n : Nat} (h : n < 0x100000000) : count? (.integer n) = some n := by
  have hfits : (0 : Int) ≤ n ∧ (n : Int) < 0x100000000 := by omega
  rw [count?, if_pos hfits, Int.toNat_natCast]

section Entries

variable {origin : TableOrigin} {es : Toml.Entries}

theorem orDefault_get? {α : Type} {other : α} {read : Toml → Option α} {key : String} {t : Toml}
    (h : es.get? key = some t) : orDefault other read (es.get? key) = read t := by
  rw [h]
  rfl

theorem kdf?_of_entries {kdf : KdfSettings}
    (hiterations : orDefault fewestIterations count? (es.get? "iterations") = some kdf.iterations)
    (hmode : orDefault .perStage mode? (es.get? "password_mode") = some kdf.stretchMode) :
    kdf? (.table origin es) = some kdf := by
  simp [kdf?, section?, hiterations, hmode]

theorem transport?_of_entries {transport : TransportSettings}
    (hencoding : orDefault .base64url encoding? (es.get? "encoding") = some transport.encoding)
    (hwrapped : orDefault true flag? (es.get? "wrap_url") = some transport.wrapped)
    (hlinkStart :
      orDefault Link.defaultStart text? (es.get? "url_prefix") = some transport.linkStart)
    (hlevel :
      orDefault Payload.defaultLevel count? (es.get? "compression_level") = some transport.level) :
    transport? (.table origin es) = some transport := by
  simp [transport?, section?, hencoding, hwrapped, hlinkStart, hlevel]

theorem store?_entries (path : Option String) :
    store? (.table origin (path.elim [] fun path => [("path", .text path)])) = some ⟨path⟩ := by
  cases path <;> rfl

theorem ofToml?_of_entries {s : Settings}
    (hlog : orDefault {} log? (es.get? "log") = some s.log)
    (hkdf : orDefault {} kdf? (es.get? "kdf") = some s.kdf)
    (htransport : orDefault {} transport? (es.get? "transport") = some s.transport)
    (hstore : orDefault {} store? (es.get? "store") = some s.store) : ofToml? es = some s := by
  rw [ofToml?, hlog, hkdf, htransport, hstore]
  rfl

end Entries

theorem ofToml?_sections {s : Settings} (hiterations : s.kdf.iterations < 0x100000000)
    (hlevel : s.transport.level < 0x100000000) :
    ofToml? (s.sections.map fun e => (e.1, .table .header e.2)) = some s := by
  refine ofToml?_of_entries ((orDefault_get? rfl).trans rfl) ((orDefault_get? rfl).trans ?_)
    ((orDefault_get? rfl).trans ?_) ((orDefault_get? rfl).trans ?_)
  · exact kdf?_of_entries ((orDefault_get? rfl).trans (count?_integer hiterations))
      ((orDefault_get? rfl).trans (mode?_label _))
  · exact transport?_of_entries ((orDefault_get? rfl).trans (encoding?_label _))
      ((orDefault_get? rfl).trans rfl) ((orDefault_get? rfl).trans rfl)
      ((orDefault_get? rfl).trans (count?_integer hlevel))
  · exact store?_entries s.store.path

theorem of_orDefault {α : Type} {other a : α} {read : Toml → Option α} {entry : Option Toml}
    (h : orDefault other read entry = some a) : a = other ∨ ∃ t, read t = some a := by
  cases entry with
  | none => exact .inl (Option.some.inj h).symm
  | some t => exact .inr ⟨t, h⟩

theorem lt_of_count? {t : Toml} {n : Nat} (h : count? t = some n) : n < 0x100000000 := by
  cases t with
  | integer m =>
    rw [count?] at h
    split_ifs at h with hfits
    cases h
    omega
  | _ => cases h

theorem iterations_of_kdf? {t : Toml} {kdf : KdfSettings} (h : kdf? t = some kdf) :
    kdf.iterations < 0x100000000 := by
  simp only [kdf?, Option.bind_eq_bind, Option.bind_eq_some_iff] at h
  obtain ⟨entries, -, h⟩ := h
  split at h
  · simp only [Option.bind_eq_some_iff] at h
    obtain ⟨iterations, hread, mode, -, h⟩ := h
    cases h
    rcases of_orDefault hread with rfl | ⟨t, ht⟩
    · exact (by decide : fewestIterations < 0x100000000)
    · exact lt_of_count? ht
  · cases h

theorem iterations_of_ofToml? {es : Toml.Entries} {s : Settings} (h : ofToml? es = some s) :
    s.kdf.iterations < 0x100000000 := by
  simp only [ofToml?, Option.bind_eq_bind, Option.bind_eq_some_iff] at h
  obtain ⟨log, -, kdf, hread, transport, -, store, -, h⟩ := h
  cases h
  rcases of_orDefault hread with rfl | ⟨t, ht⟩
  · exact (by decide : fewestIterations < 0x100000000)
  · exact iterations_of_kdf? ht

/-- Settings that were loaded pass the check, and their numbers have no more than 32 bits. -/
theorem of_ofContent {path : String} {content : Option ByteArray} {s : Settings}
    (h : ofContent path content = .ok s) :
    s.check = .ok () ∧ s.kdf.iterations < 0x100000000 ∧ s.transport.level < 0x100000000 := by
  have hfits : s.check = .ok () ∧ s.kdf.iterations < 0x100000000 := by
    cases content with
    | none =>
      cases h
      exact ⟨by decide, by decide⟩
    | some content =>
      rw [ofContent] at h
      split at h
      · cases h
      · split at h
        · cases h
        · rename_i text _ found hread
          obtain ⟨es, -, hfound⟩ := Option.bind_eq_some_iff.1 hread
          obtain ⟨_, hcheck, h⟩ := bind_eq_ok.1 h
          cases h
          exact ⟨hcheck, iterations_of_ofToml? hfound⟩
  have hlevel : s.transport.level ≤ 9 := (check_ok_iff.1 hfits.1).2.2.2
  exact ⟨hfits.1, hfits.2, by omega⟩

theorem ofContent_of_read (path : String) {text : String} {s : Settings}
    (hread : (Toml.ofText? text).bind ofToml? = some s) (hcheck : s.check = .ok ()) :
    ofContent path (some text.toUTF8) = .ok s := by
  simp only [ofContent, Utf8.decode_toUTF8, hread, hcheck, ok_bind]
  rfl

/-- Settings that were loaded, from a file or as the defaults, are loaded again as they are from the
text that they are shown as. -/
theorem shown_loads_back {path : String} {content : Option ByteArray} {s : Settings}
    (h : ofContent path content = .ok s) (shownPath : String) :
    ofContent shownPath (some s.toText.toUTF8) = .ok s := by
  obtain ⟨hcheck, hiterations, hlevel⟩ := of_ofContent h
  have hread : (Toml.ofText? s.toText).bind ofToml? = some s := by
    rw [ofText?_toText hiterations hlevel, Option.bind_some, ofToml?_sections hiterations hlevel]
  exact ofContent_of_read shownPath hread hcheck

/-- A link start of quotes, a backslash, apostrophes and a control character. -/
theorem awkwardStart_loads_back :
    ∃ s : Settings, s.transport.linkStart = "\"\"\"\\'''\x1b" ∧ s.log.format = "it's\r\n" ∧
      ofContent "settings.toml" (some
        ("log.format = \"it's\\r\\n\"\ntransport.url_prefix = \"\\\"\\\"\\\"\\\\'''\\u001b\"\n" ++
          "[store]\npath = '''\na\"\n'''").toUTF8) = .ok s ∧
      ofContent "shown.toml" (some s.toText.toUTF8) = .ok s := by
  have hread : (Toml.ofText?
      ("log.format = \"it's\\r\\n\"\ntransport.url_prefix = \"\\\"\\\"\\\"\\\\'''\\u001b\"\n" ++
        "[store]\npath = '''\na\"\n'''")).bind ofToml? =
      some ⟨⟨"warn", "it's\r\n"⟩, {}, { linkStart := "\"\"\"\\'''\x1b" }, ⟨some "a\"\n"⟩⟩ := by
    decide +kernel
  have hload := ofContent_of_read "settings.toml" hread (by decide)
  exact ⟨_, rfl, rfl, hload, shown_loads_back hload "shown.toml"⟩

end SealedText.Settings
