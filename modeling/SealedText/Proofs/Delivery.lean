import SealedText.Opening
import SealedText.Proofs.EnvelopeExact
import SealedText.Proofs.LinkDelivery
import SealedText.Proofs.PayloadRoundTrip

/-!
# Sealed links survive delivery

A message is sealed into a link, the link is delivered inside any text, and the text is opened with
a list of candidates. The readings of the text include the envelope (`mem_readings`), the attempts
include the one with the right key, and it gives the message. If nothing tried before it is
authentic, that is the answer (`opens_delivered`); passwords work in the same way.
-/

namespace SealedText

theorem findSome?_of_takeWhile {α β : Type} [DecidableEq α] {f : α → Option β} {x : α} {r : β}
    (hx : f x = some r) : ∀ {l : List α}, x ∈ l → (∀ y ∈ l.takeWhile (· ≠ x), f y = none) →
      l.findSome? f = some r
  | y :: l, hmem, hnone => by
    by_cases hy : y = x
    · rw [hy, List.findSome?_cons, hx]
    · rw [List.takeWhile_cons_of_pos (by simpa using hy)] at hnone
      obtain ⟨hfirst, hrest⟩ := List.forall_mem_cons.1 hnone
      have hmem : x ∈ l := (List.mem_cons.1 hmem).resolve_left fun h => hy h.symm
      rw [List.findSome?_cons, hfirst]
      exact findSome?_of_takeWhile hx hmem hrest

/-- What is tried to open a delivered text, in order. -/
def attempts (linkStart : String) (candidates : List (String × Keyset)) (delivered : String) :
    List (Bytes × String × Keyset) :=
  (readings linkStart delivered).flatMap fun sealed =>
    candidates.map fun candidate => (sealed, candidate)

theorem openAmong_eq (linkStart : String) (candidates : List (String × Keyset))
    (delivered : String) :
    openAmong linkStart candidates delivered =
      ((attempts linkStart candidates delivered).findSome? fun a =>
        settle a.2.1 (Envelope.decrypt .standard a.2.2 a.1)).getD (.error .noneFits) := rfl

section Reading

variable {linkStart delivered : String} {e : TokenEncoding} {sealed : Bytes}

theorem mem_readings_iff :
    sealed ∈ readings linkStart delivered ↔
      ∃ e : TokenEncoding, e.decode (Link.unwrap linkStart delivered) = .ok sealed := by
  rw [readings, List.mem_eraseDups, List.mem_filterMap]
  constructor
  · rintro ⟨e, -, h⟩
    cases hread : e.decode (Link.unwrap linkStart delivered) with
    | error err =>
      rw [hread] at h
      cases h
    | ok bytes =>
      rw [hread] at h
      cases h
      exact ⟨e, hread⟩
  · rintro ⟨e, h⟩
    refine ⟨e, ?_, by rw [h]; rfl⟩
    cases e <;> decide

/-- Every encoding of an envelope is read back from what is delivered. -/
theorem mem_readings (hstart : linkStart ≠ "")
    (h : Link.Delivers linkStart (e.encode sealed) delivered) :
    sealed ∈ readings linkStart delivered := by
  have hslash : ∀ c ∈ (e.encode sealed).toList, c ≠ '/' :=
    fun c hc => (e.plain_of_mem_encode sealed c hc).1
  rw [mem_readings_iff, Link.unwrap_of_delivers hstart hslash h]
  exact ⟨e, e.decode_encode sealed⟩

theorem mem_attempts {candidates : List (String × Keyset)} {candidate : String × Keyset}
    (hsealed : sealed ∈ readings linkStart delivered) (hmem : candidate ∈ candidates) :
    (sealed, candidate) ∈ attempts linkStart candidates delivered :=
  List.mem_flatMap.2 ⟨sealed, hsealed, List.mem_map.2 ⟨candidate, hmem, rfl⟩⟩

theorem mem_of_mem_attempts {candidates : List (String × Keyset)} {a : Bytes × String × Keyset}
    (h : a ∈ attempts linkStart candidates delivered) : a.2 ∈ candidates := by
  obtain ⟨_, -, hmap⟩ := List.mem_flatMap.1 h
  obtain ⟨candidate, hmem, rfl⟩ := List.mem_map.1 hmap
  exact hmem

end Reading

section Settling

variable {fresh : Engine} {sealed : Bytes}

/-- An attempt with keys that fit either is authentic or settles nothing. -/
theorem settle_decrypt_eq_none {keys : Keyset} (ht : keys.text.bytes.length = fresh.keySize)
    (ha : keys.auth.bytes.length = fresh.keySize) (keyName : String)
    (h : ∀ payload, Envelope.decrypt fresh keys sealed ≠ .ok payload) :
    settle keyName (Envelope.decrypt fresh keys sealed) = none := by
  rw [Envelope.decrypt_eq ht ha] at h ⊢
  cases hopen : Envelope.opened? fresh keys.text keys.auth tagSize sealed with
  | none => rfl
  | some payload =>
    rw [hopen] at h
    exact absurd rfl (h payload)

theorem settle_decryptSalted_eq_none {key : SecretKey} (hk : key.bytes.length = fresh.keySize)
    (keyName : String) (h : ∀ payload, Envelope.Salted.decrypt fresh key sealed ≠ .ok payload) :
    settle keyName (Envelope.Salted.decrypt fresh key sealed) = none := by
  rw [Envelope.Salted.decrypt_eq hk] at h ⊢
  cases hopen : Envelope.opened? fresh key key (tagSize + Envelope.saltLength) sealed with
  | none => rfl
  | some salted =>
    rw [hopen] at h
    exact absurd rfl (h _)

theorem settle_eq_ok {keyName : String} {x : Except EnvelopeError Bytes} {opened : OpenedMessage}
    (h : settle keyName x = some (.ok opened)) :
    ∃ payload, x = .ok payload ∧ opened.keyName = keyName ∧
      Payload.read payload = .ok opened.message := by
  unfold settle at h
  split at h
  · rename_i payload
    unfold openedAs at h
    split at h
    · rename_i message hread
      cases h
      exact ⟨payload, rfl, rfl, hread⟩
    all_goals cases h
  all_goals cases h

theorem settle_ofMessage (keyName : String) (level : Nat) {message : Message} (h : message.Fits) :
    settle keyName (.ok (Payload.ofMessage level message)) = some (.ok ⟨keyName, message⟩) := by
  rw [settle, openedAs, Payload.read_ofMessage level h]

end Settling

/-- A message that is opened was authentic under the keys of a candidate. -/
theorem openAmong_ok {linkStart delivered : String} {candidates : List (String × Keyset)}
    {opened : OpenedMessage} (h : openAmong linkStart candidates delivered = .ok opened) :
    ∃ keys, (opened.keyName, keys) ∈ candidates ∧ ∃ sealed ∈ readings linkStart delivered,
      ∃ payload, Envelope.decrypt .standard keys sealed = .ok payload ∧
        Payload.read payload = .ok opened.message := by
  rw [openAmong_eq] at h
  cases hfound : (attempts linkStart candidates delivered).findSome? fun a =>
      settle a.2.1 (Envelope.decrypt .standard a.2.2 a.1) with
  | none =>
    rw [hfound] at h
    cases h
  | some answer =>
    rw [hfound, Option.getD_some] at h
    subst h
    obtain ⟨⟨sealed, name, keys⟩, hmem, hsettled⟩ := List.exists_of_findSome?_eq_some hfound
    obtain ⟨payload, hpayload, hname, hread⟩ := settle_eq_ok hsettled
    obtain ⟨_, hsealed, hmap⟩ := List.mem_flatMap.1 hmem
    obtain ⟨_, hcandidate, heq⟩ := List.mem_map.1 hmap
    cases heq
    rw [hname]
    exact ⟨keys, hcandidate, sealed, hsealed, payload, hpayload, hread⟩

/-- An attempt that settles the matter gives the answer, if no attempt before it is authentic. -/
theorem openAmong_of_first {linkStart delivered name : String} {candidates : List (String × Keyset)}
    {sealed : Bytes} {keys : Keyset} {answer : Except OpeningError OpenedMessage}
    (hkeys : ∀ c ∈ candidates, c.2.text.bytes.length = 96 ∧ c.2.auth.bytes.length = 96)
    (hmem : (sealed, name, keys) ∈ attempts linkStart candidates delivered)
    (hanswer : settle name (Envelope.decrypt .standard keys sealed) = some answer)
    (hearlier : ∀ a ∈ (attempts linkStart candidates delivered).takeWhile
        (· ≠ (sealed, name, keys)),
      ∀ payload, Envelope.decrypt .standard a.2.2 a.1 ≠ .ok payload) :
    openAmong linkStart candidates delivered = answer := by
  have hfound : ((attempts linkStart candidates delivered).findSome? fun a =>
      settle a.2.1 (Envelope.decrypt .standard a.2.2 a.1)) = some answer := by
    refine findSome?_of_takeWhile (x := (sealed, name, keys)) hanswer hmem fun a htried => ?_
    obtain ⟨ht, ha⟩ := hkeys a.2 (mem_of_mem_attempts ((List.takeWhile_prefix _).subset htried))
    exact settle_decrypt_eq_none ht ha a.2.1 (hearlier a htried)
  rw [openAmong_eq, hfound, Option.getD_some]

theorem openUnder_of_first {linkStart delivered : String} {sealed : Bytes} {key : SecretKey}
    {answer : Except OpeningError OpenedMessage} (hk : key.bytes.length = 96)
    (hmem : sealed ∈ readings linkStart delivered)
    (hanswer : settle passwordName (Envelope.Salted.decrypt .standard key sealed) = some answer)
    (hearlier : ∀ s ∈ (readings linkStart delivered).takeWhile (· ≠ sealed),
      ∀ payload, Envelope.Salted.decrypt .standard key s ≠ .ok payload) :
    openUnder linkStart key delivered = answer := by
  have hfound : ((readings linkStart delivered).findSome? fun s =>
      settle passwordName (Envelope.Salted.decrypt .standard key s)) = some answer :=
    findSome?_of_takeWhile (x := sealed) hanswer hmem fun s htried =>
      settle_decryptSalted_eq_none hk passwordName (hearlier s htried)
  rw [openUnder, hfound, Option.getD_some]

section Standard

variable {iv salt : Bytes}

theorem exists_envelope {keys : Keyset} (ht : keys.text.bytes.length = 96)
    (ha : keys.auth.bytes.length = 96) (hiv : iv.length = 16) (payload : Bytes) :
    ∃ sealed, Envelope.encrypt .standard keys iv payload = .ok sealed ∧
      Envelope.decrypt .standard keys sealed = .ok payload := by
  obtain ⟨sealed, hsealed⟩ := Envelope.exists_encloses Engine.lawful_standard (by decide) ht ha hiv
    payload
  exact ⟨sealed, (Envelope.encrypt_ok_iff ht ha).2 hsealed,
    (Envelope.decrypt_ok_iff Engine.lawful_standard (by decide) (by decide) ht ha).2
      ⟨iv, hiv, hsealed⟩⟩

theorem Keyset.exists_seal {keys : Keyset} (ht : keys.text.bytes.length = 96)
    (ha : keys.auth.bytes.length = 96) (hiv : iv.length = 16) (style : MessageStyle)
    (message : Message) :
    ∃ sealed, keys.seal style iv message = .ok (style.write sealed) ∧
      Envelope.decrypt .standard keys sealed = .ok (Payload.ofMessage style.level message) := by
  obtain ⟨sealed, hseal, hopen⟩ :=
    exists_envelope ht ha hiv (Payload.ofMessage style.level message)
  refine ⟨sealed, ?_, hopen⟩
  rw [Keyset.seal, hseal]
  rfl

theorem exists_saltedEnvelope {key : SecretKey} (hk : key.bytes.length = 96) (hiv : iv.length = 16)
    (hsalt : salt.length = 8) (payload : Bytes) :
    ∃ sealed, Envelope.Salted.encrypt .standard key iv salt payload = .ok sealed ∧
      Envelope.Salted.decrypt .standard key sealed = .ok payload := by
  obtain ⟨sealed, hsealed⟩ := Envelope.exists_encloses Engine.lawful_standard (by decide) hk hk hiv
    (salt ++ payload)
  exact ⟨sealed, (Envelope.Salted.encrypt_ok_iff hk).2 hsealed,
    (Envelope.Salted.decrypt_ok_iff Engine.lawful_standard (by decide) (by decide) hk).2
      ⟨iv, salt, hiv, hsalt, hsealed⟩⟩

theorem write_of_wrapped {style : MessageStyle} (h : style.wrapped = true) (sealed : Bytes) :
    style.write sealed = Link.wrap style.linkStart (style.encoding.encode sealed) := by
  simp only [MessageStyle.write, if_pos h]

end Standard

/-- What is sealed into a link opens to the same message, however the link is delivered, unless
something that is tried before it is authentic. -/
theorem opens_delivered :
    ∀ style : MessageStyle, style.wrapped = true → style.linkStart ≠ "" →
      ∀ message : Message, message.Fits → ∀ iv : Bytes, iv.length = 16 →
        (∀ keys : Keyset, keys.text.bytes.length = 96 → keys.auth.bytes.length = 96 →
          ∃ sealed, keys.seal style iv message =
              .ok (Link.wrap style.linkStart (style.encoding.encode sealed)) ∧
            ∀ delivered, Link.Delivers style.linkStart (style.encoding.encode sealed) delivered →
              ∀ (candidates : List (String × Keyset)) (name : String),
                (∀ c ∈ candidates, c.2.text.bytes.length = 96 ∧ c.2.auth.bytes.length = 96) →
                (name, keys) ∈ candidates →
                (∀ a ∈ (attempts style.linkStart candidates delivered).takeWhile
                    (· ≠ (sealed, name, keys)),
                  ∀ payload, Envelope.decrypt .standard a.2.2 a.1 ≠ .ok payload) →
                openAmong style.linkStart candidates delivered = .ok ⟨name, message⟩) ∧
        ∀ (params : Stretch) (password : String) (salt : Bytes), salt.length = 8 →
          ∃ sealed, (params.key password).seal style iv salt message =
              .ok (Link.wrap style.linkStart (style.encoding.encode sealed)) ∧
            ∀ delivered, Link.Delivers style.linkStart (style.encoding.encode sealed) delivered →
              (∀ s ∈ (readings style.linkStart delivered).takeWhile (· ≠ sealed),
                ∀ payload,
                  Envelope.Salted.decrypt .standard (params.key password) s ≠ .ok payload) →
              openUnder style.linkStart (params.key password) delivered =
                .ok ⟨"password", message⟩ := by
  intro style hwrapped hstart message hfits iv hiv
  refine ⟨fun keys ht ha => ?_, fun params password salt hsalt => ?_⟩
  · obtain ⟨sealed, hseal, hopen⟩ :=
      exists_envelope ht ha hiv (Payload.ofMessage style.level message)
    refine ⟨sealed, ?_, fun delivered hdelivers candidates name hkeys hmem hearlier => ?_⟩
    · rw [Keyset.seal, hseal, ok_bind, write_of_wrapped hwrapped]
      rfl
    · have hmem := mem_attempts (mem_readings hstart hdelivers) hmem
      refine openAmong_of_first hkeys hmem ?_ hearlier
      rw [hopen, settle_ofMessage name style.level hfits]
  · have hk : (params.key password).bytes.length = 96 := params.length_key password
    obtain ⟨sealed, hseal, hopen⟩ :=
      exists_saltedEnvelope hk hiv hsalt (Payload.ofMessage style.level message)
    refine ⟨sealed, ?_, fun delivered hdelivers hearlier => ?_⟩
    · rw [SecretKey.seal, hseal, ok_bind, write_of_wrapped hwrapped]
      rfl
    · refine openUnder_of_first hk (mem_readings hstart hdelivers) ?_ hearlier
      rw [hopen, settle_ofMessage passwordName style.level hfits]
      rfl

/-- The encoding for links is read first, so what it writes is tried before anything else. -/
theorem readings_of_unwrap {linkStart delivered : String} {sealed : Bytes}
    (h : Link.unwrap linkStart delivered = TokenEncoding.base64url.encode sealed) :
    ∃ rest, readings linkStart delivered = sealed :: rest := by
  have hread : (TokenEncoding.base64url.decode (TokenEncoding.base64url.encode sealed)).toOption =
      some sealed := by
    rw [TokenEncoding.decode_encode]
    rfl
  simp only [readings, h, TokenEncoding.all, List.filterMap_cons, hread, List.eraseDups_cons]
  exact ⟨_, rfl⟩

theorem readings_base64url {linkStart delivered : String} {sealed : Bytes} (hstart : linkStart ≠ "")
    (h : Link.Delivers linkStart (TokenEncoding.base64url.encode sealed) delivered) :
    ∃ rest, readings linkStart delivered = sealed :: rest :=
  readings_of_unwrap (Link.unwrap_of_delivers hstart
    (fun c hc => (TokenEncoding.base64url.plain_of_mem_encode sealed c hc).1) h)

theorem takeWhile_attempts {linkStart delivered : String} {sealed : Bytes} {rest : List Bytes}
    (h : readings linkStart delivered = sealed :: rest) (candidate : String × Keyset)
    (others : List (String × Keyset)) :
    (attempts linkStart (candidate :: others) delivered).takeWhile (· ≠ (sealed, candidate)) =
      [] := by
  rw [attempts, h, List.flatMap_cons, List.map_cons, List.cons_append]
  exact List.takeWhile_cons_of_neg (by simp)

theorem brokenLink_opens :
    ∃ sealed, Keyset.seal ⟨⟨List.replicate 96 1⟩, ⟨List.replicate 96 2⟩⟩ {} (List.replicate 16 3)
          (.text "hello bob") =
        .ok (Link.wrap "cryptext://m/" (TokenEncoding.base64url.encode sealed)) ∧
      openAmong "cryptext://m/" [("bob", ⟨⟨List.replicate 96 1⟩, ⟨List.replicate 96 2⟩⟩)]
          ("cryptext://m/" ++ ("\n" ++ TokenEncoding.base64url.encode sealed) ++ "/ bye") =
        .ok ⟨"bob", .text "hello bob"⟩ := by
  obtain ⟨sealed, hseal, hopen⟩ := (opens_delivered {} rfl (by decide) (.text "hello bob")
    (by decide) (List.replicate 16 3) rfl).1 ⟨⟨List.replicate 96 1⟩, ⟨List.replicate 96 2⟩⟩ rfl rfl
  have hdelivers : Link.Delivers "cryptext://m/" (TokenEncoding.base64url.encode sealed)
      ("cryptext://m/" ++ ("\n" ++ TokenEncoding.base64url.encode sealed) ++ "/ bye") := by
    refine ⟨"", "\n" ++ TokenEncoding.base64url.encode sealed, "/ bye", ?_,
      fun _ _ _ => Nat.zero_le _, ?_, by simp⟩
    · rw [String.empty_append]
    have hplain : ∀ c ∈ (TokenEncoding.base64url.encode sealed).toList, (!isBlank c) = true := by
      intro c hc
      rw [(TokenEncoding.base64url.plain_of_mem_encode sealed c hc).2]
      rfl
    rw [String.toList_append, List.filter_append, List.filter_eq_self.2 hplain]
    rfl
  obtain ⟨rest, hrest⟩ := readings_base64url (by decide) hdelivers
  refine ⟨sealed, hseal, hopen _ hdelivers _ "bob" ?_ (List.mem_singleton.2 rfl) ?_⟩
  · intro c hc
    rw [List.mem_singleton.1 hc]
    exact ⟨rfl, rfl⟩
  · intro a ha
    have hnone := takeWhile_attempts hrest
      ("bob", ⟨⟨List.replicate 96 1⟩, ⟨List.replicate 96 2⟩⟩) []
    exact absurd ha (List.eq_nil_iff_forall_not_mem.1 hnone a)

end SealedText
