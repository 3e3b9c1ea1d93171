import SealedText.Settings
import SealedText.Command.Run
import SealedText.Proofs.TokenLengths

/-!
# Bare tokens

A token that is not wrapped into a link is still searched for the start of one. If the start does not
occur in it, the whole token is taken, and it opens to what was sealed (`opens_bare`). Settings that
pass their check leave room for starts that do occur in tokens, and what is in front of the
occurrence is lost then (`shortStart_loses_token`).
-/

namespace SealedText

namespace Link

def OccursIn (start text : String) : Prop := ∃ before after, text = before ++ start ++ after

theorem after?_of_not_occurs {start : List Char} : ∀ {text : List Char},
    (∀ before after, text ≠ before ++ (start ++ after)) → after? start text = none
  | [], h => by
    rw [after?, if_neg]
    rw [List.isEmpty_iff]
    rintro rfl
    exact h [] [] rfl
  | c :: text, h => by
    rw [after?, if_neg]
    · refine after?_of_not_occurs fun before after heq => ?_
      exact h (c :: before) after (by rw [heq, List.cons_append])
    · rw [List.isPrefixOf_iff_prefix]
      rintro ⟨after, hafter⟩
      exact h [] after hafter.symm

/-- A text in which the start does not occur is taken as a whole. -/
theorem unwrap_of_not_occurs {start text : String} (h : ¬ OccursIn start text) :
    unwrap start text = String.ofList (text.toList.filter (!isBlank ·)) := by
  have hnone : after? start.toList text.toList = none := by
    refine after?_of_not_occurs fun before after heq => h ?_
    refine ⟨String.ofList before, String.ofList after, ?_⟩
    rw [← String.toList_inj, heq]
    simp only [String.toList_append, String.toList_ofList, List.append_assoc]
  rw [unwrap, tokenPart, hnone]
  split_ifs <;> rfl

theorem filter_of_plain {cs : List Char} (h : ∀ c ∈ cs, isBlank c = false) :
    cs.filter (!isBlank ·) = cs :=
  List.filter_eq_self.2 fun c hc => by rw [h c hc]; rfl

theorem filter_of_blank {cs : List Char} (h : ∀ c ∈ cs, isBlank c = true) :
    cs.filter (!isBlank ·) = [] :=
  List.filter_eq_nil_iff.2 fun c hc => by rw [h c hc]; exact Bool.false_ne_true

/-- White space does not make a start occur that has none. -/
theorem occursIn_of_blank {start token ending : String}
    (hstart : ∀ c ∈ start.toList, isBlank c = false) (htoken : ∀ c ∈ token.toList, isBlank c = false)
    (hending : ∀ c ∈ ending.toList, isBlank c = true) (h : OccursIn start (token ++ ending)) :
    OccursIn start token := by
  obtain ⟨before, after, heq⟩ := h
  have hfilter : (token ++ ending).toList.filter (!isBlank ·) =
      (before ++ start ++ after).toList.filter (!isBlank ·) := by rw [heq]
  simp only [String.toList_append, List.filter_append, filter_of_plain hstart,
    filter_of_plain htoken, filter_of_blank hending, List.append_nil] at hfilter
  refine ⟨String.ofList (before.toList.filter (!isBlank ·)),
    String.ofList (after.toList.filter (!isBlank ·)), ?_⟩
  rw [← String.toList_inj, hfilter]
  simp only [String.toList_append, String.toList_ofList]

/-- A token is read as it is, with white space after it. -/
theorem unwrap_token {start token ending : String} (hstart : ∀ c ∈ start.toList, isBlank c = false)
    (htoken : ∀ c ∈ token.toList, isBlank c = false)
    (hending : ∀ c ∈ ending.toList, isBlank c = true) (h : ¬ OccursIn start token) :
    unwrap start (token ++ ending) = token := by
  rw [unwrap_of_not_occurs (mt (occursIn_of_blank hstart htoken hending) h), String.toList_append,
    List.filter_append, filter_of_plain htoken, filter_of_blank hending, List.append_nil,
    String.ofList_toList]

end Link

/-- A token that starts with the start of links loses it. -/
theorem Link.unwrap_append {start rest : String} (hstart : start ≠ "")
    (hrest : ∀ c ∈ rest.toList, c ≠ '/' ∧ isBlank c = false) :
    unwrap start (start ++ rest) = rest := by
  refine unwrap_of_delivers hstart (fun c hc => (hrest c hc).1)
    ⟨"", rest, "", ?_, fun _ _ _ => Nat.zero_le _, filter_of_plain fun c hc => (hrest c hc).2, ?_⟩
  · rw [String.empty_append, String.append_empty]
  · simp

theorem Settings.check_ok_iff {s : Settings} :
    s.check = .ok () ↔ fewestIterations ≤ s.kdf.iterations ∧ s.transport.linkStart ≠ "" ∧
      s.transport.linkStart.toList.any isBlank = false ∧
      s.transport.level ≤ Payload.maxLevel := by
  have hempty : s.transport.linkStart ≠ "" ↔ ¬ s.transport.linkStart.isEmpty = true := by
    rw [String.isEmpty_iff]
  rw [hempty, ← Nat.not_lt, ← Nat.not_lt, check]
  split_ifs with hrounds hstart hany hlevel <;> simp_all

namespace TokenEncoding

/-- A start with a character that is in no token occurs in none. -/
theorem not_occursIn_encode {start : String} {e : TokenEncoding}
    (h : ∃ c ∈ start.toList, c ∉ e.alphabet) (data : Bytes) :
    ¬ Link.OccursIn start (e.encode data) := by
  obtain ⟨c, hc, hforeign⟩ := h
  rintro ⟨before, after, heq⟩
  refine hforeign (e.mem_alphabet data c ?_)
  rw [heq, String.toList_append, String.toList_append]
  exact List.mem_append_left _ (List.mem_append_right _ hc)

end TokenEncoding

section Reading

variable {linkStart delivered : String} {sealed : Bytes} {e : TokenEncoding}

/-- Nothing is read before the token itself, except a Base61 token as the other encoding. -/
theorem decode_of_earlier (h : Link.unwrap linkStart delivered = e.encode sealed)
    {candidate : String × Keyset} {a : Bytes × String × Keyset}
    (ha : a ∈ (attempts linkStart [candidate] delivered).takeWhile (· ≠ (sealed, candidate))) :
    e = .base61 ∧ a.2 = candidate ∧ TokenEncoding.base64url.decode (e.encode sealed) = .ok a.1 := by
  cases e with
  | base64url =>
    obtain ⟨rest, hrest⟩ := readings_of_unwrap h
    rw [takeWhile_attempts hrest candidate []] at ha
    cases ha
  | base61 =>
    have hne : a ≠ (sealed, candidate) := by simpa using List.mem_takeWhile_imp ha
    have hmem := (List.takeWhile_prefix _).subset ha
    obtain ⟨read, hread, hmap⟩ := List.mem_flatMap.1 hmem
    obtain ⟨c, hc, rfl⟩ := List.mem_map.1 hmap
    rw [List.mem_singleton.1 hc] at hne ⊢
    obtain ⟨e, he⟩ := mem_readings_iff.1 hread
    rw [h] at he
    cases e with
    | base64url => exact ⟨rfl, rfl, he⟩
    | base61 =>
      rw [TokenEncoding.decode_encode] at he
      cases he
      exact absurd rfl hne

end Reading

theorem opens_bare (s : Situation) (base61 bare : Bool) (keys : Keyset) (iv : Bytes)
    (text name : String) (hcheck : s.settings.check = .ok ())
    (hbare : (s.style base61 bare).wrapped = false) (ht : keys.text.bytes.length = 96)
    (ha : keys.auth.bytes.length = 96) (hiv : iv.length = 16)
    (htext : text.toUTF8.size ≤ Payload.maxUnpacked) :
    ∃ sealed,
      let encoding := (s.style base61 bare).encoding
      let linkStart := s.settings.transport.linkStart
      let token := encoding.encode sealed
      keys.seal (s.style base61 bare) iv (.text text) = .ok token ∧
        (¬ Link.OccursIn linkStart token →
          (encoding = .base61 → ∀ other, TokenEncoding.base64url.decode token = .ok other →
            ∀ payload, Envelope.decrypt .standard keys other ≠ .ok payload) →
          ∀ ending : String, (∀ c ∈ ending.toList, isBlank c = true) →
            openAmong linkStart [(name, keys)] (token ++ ending) = .ok ⟨name, .text text⟩) ∧
        ((∃ c ∈ linkStart.toList, c ∉ encoding.alphabet) → ¬ Link.OccursIn linkStart token) := by
  have hstart : ∀ c ∈ s.settings.transport.linkStart.toList, isBlank c = false := by
    simpa using (Settings.check_ok_iff.1 hcheck).2.2.1
  obtain ⟨sealed, hseal, hopen⟩ := Keyset.exists_seal ht ha hiv (s.style base61 bare) (.text text)
  refine ⟨sealed, ?_, fun hno hother ending hending => ?_,
    fun hforeign => TokenEncoding.not_occursIn_encode hforeign sealed⟩
  · rw [hseal, MessageStyle.write, hbare]
    rfl
  · have hplain : ∀ c ∈ ((s.style base61 bare).encoding.encode sealed).toList, isBlank c = false :=
      fun c hc => (TokenEncoding.plain_of_mem_encode _ sealed c hc).2
    have hunwrap := Link.unwrap_token hstart hplain hending hno
    have hmem := mem_attempts (mem_readings_iff.2 ⟨_, by
      rw [hunwrap]; exact TokenEncoding.decode_encode _ sealed⟩)
      (List.mem_singleton.2 (rfl : (name, keys) = (name, keys)))
    refine openAmong_of_first ?_ hmem ?_ fun a hearlier => ?_
    · intro c hc
      rw [List.mem_singleton.1 hc]
      exact ⟨ht, ha⟩
    · have hfits : Message.Fits (.text text) := htext
      rw [hopen, settle_ofMessage name _ hfits]
    · obtain ⟨hbase61, hcandidate, hread⟩ := decode_of_earlier hunwrap hearlier
      rw [hcandidate]
      exact hother hbase61 a.1 hread

theorem bareToken_opens :
    ∃ sealed, Keyset.seal ⟨⟨List.replicate 96 1⟩, ⟨List.replicate 96 2⟩⟩
          (Situation.style {} false true) (List.replicate 16 3) (.text "hello bob") =
        .ok (TokenEncoding.base64url.encode sealed) ∧
      openAmong "cryptext://m/" [("bob", ⟨⟨List.replicate 96 1⟩, ⟨List.replicate 96 2⟩⟩)]
          (TokenEncoding.base64url.encode sealed ++ "\n") =
        .ok ⟨"bob", .text "hello bob"⟩ := by
  have hcheck : Settings.check {} = .ok () :=
    Settings.check_ok_iff.2 ⟨le_rfl, by decide, rfl, by decide⟩
  obtain ⟨sealed, hseal, hopen, hno⟩ := opens_bare {} false true
    ⟨⟨List.replicate 96 1⟩, ⟨List.replicate 96 2⟩⟩ (List.replicate 16 3) "hello bob" "bob" hcheck
    rfl rfl rfl rfl (by decide)
  have hcolon : ∃ c ∈ "cryptext://m/".toList, c ∉ TokenEncoding.base64url.alphabet :=
    ⟨':', by decide, by decide⟩
  refine ⟨sealed, hseal, hopen (hno hcolon) (fun h => ?_) "\n" (by simp [isBlank])⟩
  cases h

/-- An envelope that starts with three zero bytes is written with an `A` first. -/
theorem exists_token_of_zeros {sealed : Bytes} (h : [0, 0, 0] <+: sealed) :
    ∃ rest : Bytes, TokenEncoding.base64url.encode sealed = "A" ++ Base64.asciiText rest ∧
      (Base64.asciiText rest).toUTF8.toList = rest ∧
        rest.length + 1 = (4 * sealed.length + 2) / 3 := by
  obtain ⟨after, rfl⟩ := h
  have hbytes : Base64.encodeBytes Base64.url ([0, 0, 0] ++ after) =
      65 :: 65 :: 65 :: 65 :: Base64.encodeBytes Base64.url after := by
    simp [Base64.encodeBytes, Base64.Alphabet.symbol]
  have hascii : ∀ b ∈ Base64.encodeBytes Base64.url ([0, 0, 0] ++ after), b < 128 :=
    Base64.forall_mem_encodeBytes Base64.sound_url.symbol_lt (fun _ => by decide) _
  have hlen := Base64.length_encodeBytes_url ([0, 0, 0] ++ after)
  rw [hbytes] at hascii hlen
  refine ⟨65 :: 65 :: 65 :: Base64.encodeBytes Base64.url after, ?_,
    Base64.toUTF8_asciiText (List.forall_mem_cons.1 hascii).2, hlen⟩
  rw [TokenEncoding.encode, Base64.encode, hbytes, ← String.toList_inj, String.toList_append,
    Base64.toList_asciiText, Base64.toList_asciiText]
  rfl

/-- The vector is zero, so the token starts with the start of links, and is taken to go on after it.
What is left is too short for an envelope. -/
theorem shortStart_loses_token :
    let s : Situation := { settings := { transport := { linkStart := "A", wrapped := false } } }
    let keys : Keyset := ⟨⟨List.replicate 96 1⟩, ⟨List.replicate 96 2⟩⟩
    s.settings.check = .ok () ∧ (s.style false false).wrapped = false ∧
      ∃ sealed, keys.seal (s.style false false) (List.replicate 16 0) (.text "hi") =
          .ok (TokenEncoding.base64url.encode sealed) ∧
        openAmong s.settings.transport.linkStart [("bob", keys)]
          (TokenEncoding.base64url.encode sealed) = .error .noneFits := by
  intro s keys
  have hblank : "A".toList.any isBlank = false := rfl
  refine ⟨Settings.check_ok_iff.2 ⟨le_rfl, by decide, hblank, by decide⟩, rfl, ?_⟩
  have ht : keys.text.bytes.length = Engine.standard.keySize := rfl
  have ha : keys.auth.bytes.length = Engine.standard.keySize := rfl
  have hiv : (List.replicate 16 (0 : UInt8)).length = Engine.standard.blockSize := rfl
  obtain ⟨sealed, henc⟩ := Envelope.exists_encloses Engine.lawful_standard (by decide) ht ha hiv
    (Payload.ofMessage (s.style false false).level (.text "hi"))
  have hseal : keys.seal (s.style false false) (List.replicate 16 0) (.text "hi") =
      .ok (TokenEncoding.base64url.encode sealed) := by
    rw [Keyset.seal, (Envelope.encrypt_ok_iff ht ha).2 henc]
    rfl
  have hshort : (Payload.ofMessage (s.style false false).level (.text "hi")).length ≤ 3 := by
    have hsize : ("hi" : String).toUTF8.size = 2 := by decide
    rw [Payload.ofMessage, Payload.length_ofText, hsize]
    omega
  have hlen : sealed.length = 32 := by
    have hlen := Envelope.length_of_encloses Engine.lawful_standard (by decide) ht ha hiv henc
    have hblock : Engine.standard.blockSize = 16 := rfl
    rw [hblock, tagSize, padLength] at hlen
    omega
  have hzeros : [0, 0, 0] <+: sealed := by
    have htake : sealed.take 16 = List.replicate 16 0 := Envelope.take_of_encloses henc rfl
    have hprefix : [0, 0, 0] <+: List.replicate 16 (0 : UInt8) := ⟨List.replicate 13 0, rfl⟩
    rw [← htake] at hprefix
    exact hprefix.trans (List.take_prefix 16 sealed)
  obtain ⟨rest, htoken, hrest, hcount⟩ := exists_token_of_zeros hzeros
  have hplain : ∀ c ∈ (Base64.asciiText rest).toList, c ≠ '/' ∧ isBlank c = false := by
    intro c hc
    refine TokenEncoding.base64url.plain_of_mem_encode sealed c ?_
    rw [htoken, String.toList_append]
    exact List.mem_append_right _ hc
  refine ⟨sealed, hseal, openAmong_of_short ?_ ?_⟩
  · intro c hc
    rw [List.mem_singleton.1 hc]
    exact ⟨rfl, rfl⟩
  · rw [htoken, Link.unwrap_append (by decide) hplain, hrest]
    omega

end SealedText
