import SealedText.Proofs.Delivery

/-!
# What opening a message gives away

The answer to a delivered text is settled by the first of its readings and candidates that are
authentic together: if there are none it is the one failure (`openAmong_of_none`), and otherwise it
depends on the name and the payload of that attempt only (`openAmong_of_split`). So candidates that
open no reading can come and go without a trace (`openAmong_congr`). An envelope gives away no more:
a key that does not fit is told apart whatever the envelope is, and all else is refused alike.
-/

namespace SealedText

namespace Envelope

variable {fresh : Engine} {sealed : Bytes} {cause : CipherError}

theorem checkLength_of_ne {key : SecretKey} (hk : key.bytes.length ≠ fresh.keySize) :
    checkLength fresh key = .error (fresh.wrongKey key.bytes) := by
  rw [checkLength, if_pos hk]

theorem decrypt_error_of_fits {keys : Keyset} {err : EnvelopeError}
    (ht : keys.text.bytes.length = fresh.keySize) (ha : keys.auth.bytes.length = fresh.keySize)
    (h : decrypt fresh keys sealed = .error err) : err = .refused := by
  rw [decrypt_eq ht ha] at h
  cases hopen : opened? fresh keys.text keys.auth tagSize sealed <;> rw [hopen] at h <;> cases h
  rfl

theorem Salted.decrypt_error_of_fits {key : SecretKey} {err : EnvelopeError}
    (hk : key.bytes.length = fresh.keySize) (h : decrypt fresh key sealed = .error err) :
    err = .refused := by
  rw [Salted.decrypt_eq hk] at h
  cases hopen : opened? fresh key key (tagSize + saltLength) sealed <;> rw [hopen] at h <;> cases h
  rfl

/-- The first key that does not fit is the cause, whatever the envelope is. -/
theorem decrypt_unusableKey_iff {keys : Keyset} :
    decrypt fresh keys sealed = .error (.unusableKey cause) ↔
      (keys.text.bytes.length ≠ fresh.keySize ∧ cause = fresh.wrongKey keys.text.bytes) ∨
      (keys.text.bytes.length = fresh.keySize ∧ keys.auth.bytes.length ≠ fresh.keySize ∧
        cause = fresh.wrongKey keys.auth.bytes) := by
  by_cases ht : keys.text.bytes.length = fresh.keySize
  · by_cases ha : keys.auth.bytes.length = fresh.keySize
    · refine iff_of_false (fun h => ?_) (by simp [ht, ha])
      cases decrypt_error_of_fits ht ha h
    · have h : decrypt fresh keys sealed =
          .error (.unusableKey (fresh.wrongKey keys.auth.bytes)) := by
        rw [decrypt, checkLength_of_eq ht, checkLength_of_ne ha]
        rfl
      simp [h, ht, ha, eq_comm]
  · have h : decrypt fresh keys sealed =
        .error (.unusableKey (fresh.wrongKey keys.text.bytes)) := by
      rw [decrypt, checkLength_of_ne ht]
      rfl
    simp [h, ht, eq_comm]

theorem Salted.decrypt_unusableKey_iff {key : SecretKey} :
    decrypt fresh key sealed = .error (.unusableKey cause) ↔
      key.bytes.length ≠ fresh.keySize ∧ cause = fresh.wrongKey key.bytes := by
  by_cases hk : key.bytes.length = fresh.keySize
  · refine iff_of_false (fun h => ?_) (by simp [hk])
    cases decrypt_error_of_fits hk h
  · have h : decrypt fresh key sealed = .error (.unusableKey (fresh.wrongKey key.bytes)) := by
      rw [decrypt, checkLength_of_ne hk]
      rfl
    simp [h, hk, eq_comm]

end Envelope

section Payload

theorem PayloadKind.ofByte?_eq_some_iff {b : UInt8} {k : PayloadKind} :
    ofByte? b = some k ↔ b = k.toByte := by
  constructor
  · intro h
    unfold ofByte? at h
    split at h <;> cases h <;> rfl
  · rintro rfl
    exact ofByte?_toByte k

theorem Payload.textOf_ne_reserved (body : ByteArray) : textOf body ≠ .error .reserved := by
  unfold textOf
  split <;> simp

/-- Only the byte for the kind makes a payload one of the reserved kind. -/
theorem Payload.read_reserved_iff {payload : Bytes} :
    read payload = .error .reserved ↔ payload.head? = some 2 := by
  rcases payload with _ | ⟨b, body⟩
  · simp [read]
  have hbyte : (2 : UInt8) = PayloadKind.keyReplacement.toByte := rfl
  rw [List.head?_cons, Option.some.injEq, hbyte, ← PayloadKind.ofByte?_eq_some_iff, read]
  rcases PayloadKind.ofByte? b with _ | _ | _ | _ | _
  · simp
  · simp [textOf_ne_reserved]
  · cases Gzip.decompress maxUnpacked (Utf8.pack body) <;> simp [textOf_ne_reserved]
  · simp
  · split_ifs <;> simp

variable {name : String} {payload : Bytes}

theorem openedAs_of_read {message : Message} (h : Payload.read payload = .ok message) :
    openedAs name payload = .ok ⟨name, message⟩ := by
  rw [openedAs, h]

theorem openedAs_unsupported_iff :
    (∃ feature, openedAs name payload = .error (.unsupported feature)) ↔
      payload.head? = some 2 := by
  rw [← Payload.read_reserved_iff, openedAs]
  rcases Payload.read payload with err | message
  · cases err <;> simp
  · simp

theorem openedAs_of_unreadable (hread : ∀ message, Payload.read payload ≠ .ok message)
    (hkind : payload.head? ≠ some 2) : openedAs name payload = .error .noneFits := by
  rw [ne_eq, ← Payload.read_reserved_iff] at hkind
  rw [openedAs]
  rcases hpayload : Payload.read payload with err | message
  · cases err with
    | reserved => exact absurd hpayload hkind
    | _ => rfl
  · exact absurd hpayload (hread message)

theorem openedAs_ne_unusableKey (cause : CipherError) :
    openedAs name payload ≠ .error (.unusableKey cause) := by
  unfold openedAs
  split <;> simp

end Payload

section Attempts

variable {linkStart delivered : String} {candidates others : List (String × Keyset)}

/-- Every key has the length of a cascade key. -/
def Usable (candidates : List (String × Keyset)) : Prop :=
  ∀ c ∈ candidates, c.2.text.bytes.length = 96 ∧ c.2.auth.bytes.length = 96

/-- The candidate opens a reading of the delivered text. -/
def fits (linkStart delivered : String) (candidate : String × Keyset) : Bool :=
  (readings linkStart delivered).any fun sealed =>
    (Envelope.decrypt .standard candidate.2 sealed).isOk

/-- The base64 reading comes first, and a Base61 reading counts if it is another one. -/
theorem readings_eq (linkStart delivered : String) :
    readings linkStart delivered =
      match TokenEncoding.base64url.decode (Link.unwrap linkStart delivered),
          TokenEncoding.base61.decode (Link.unwrap linkStart delivered) with
      | .ok first, .ok second => if second = first then [first] else [first, second]
      | .ok first, .error _ => [first]
      | .error _, .ok second => [second]
      | .error _, .error _ => [] := by
  simp only [readings, TokenEncoding.all, List.filterMap_cons, List.filterMap_nil]
  rcases TokenEncoding.base64url.decode (Link.unwrap linkStart delivered) with err | first <;>
    rcases TokenEncoding.base61.decode (Link.unwrap linkStart delivered) with err' | second
  · rfl
  · rfl
  · rfl
  · by_cases h : second = first <;> simp [Except.toOption, List.eraseDups_cons, h]

/-- The answer of one attempt, if it settles the matter. -/
def answered (a : Bytes × String × Keyset) : Option (Except OpeningError OpenedMessage) :=
  settle a.2.1 (Envelope.decrypt .standard a.2.2 a.1)

theorem Usable.answered_eq_none (h : Usable candidates) {a : Bytes × String × Keyset}
    (hmem : a.2 ∈ candidates)
    (hnone : ∀ payload, Envelope.decrypt .standard a.2.2 a.1 ≠ .ok payload) :
    answered a = none :=
  settle_decrypt_eq_none (h a.2 hmem).1 (h a.2 hmem).2 a.2.1 hnone

theorem openAmong_eq_answered :
    openAmong linkStart candidates delivered =
      ((attempts linkStart candidates delivered).findSome? answered).getD (.error .noneFits) := rfl

theorem openAmong_of_none (h : Usable candidates)
    (hnone : ∀ a ∈ attempts linkStart candidates delivered, ∀ payload,
      Envelope.decrypt .standard a.2.2 a.1 ≠ .ok payload) :
    openAmong linkStart candidates delivered = .error .noneFits := by
  have hfound : (attempts linkStart candidates delivered).findSome? answered = none :=
    List.findSome?_eq_none_iff.2 fun a ha =>
      h.answered_eq_none (mem_of_mem_attempts ha) (hnone a ha)
  rw [openAmong_eq_answered, hfound, Option.getD_none]

theorem openAmong_of_split (h : Usable candidates) {earlier later : List (Bytes × String × Keyset)}
    {sealed payload : Bytes} {name : String} {keys : Keyset}
    (hsplit : attempts linkStart candidates delivered = earlier ++ (sealed, name, keys) :: later)
    (hearlier : ∀ a ∈ earlier, ∀ payload, Envelope.decrypt .standard a.2.2 a.1 ≠ .ok payload)
    (hopen : Envelope.decrypt .standard keys sealed = .ok payload) :
    openAmong linkStart candidates delivered = openedAs name payload := by
  have hnone : earlier.findSome? answered = none := by
    refine List.findSome?_eq_none_iff.2 fun a ha => h.answered_eq_none ?_ (hearlier a ha)
    exact mem_of_mem_attempts (hsplit ▸ List.mem_append_left _ ha)
  have hanswer : answered (sealed, name, keys) = some (openedAs name payload) := by
    rw [answered, hopen]
    rfl
  rw [openAmong_eq_answered, hsplit, List.findSome?_append, hnone, Option.none_or,
    List.findSome?_cons, hanswer, Option.getD_some]

theorem isOk_eq_false_iff {x : Except EnvelopeError Bytes} :
    x.isOk = false ↔ ∀ payload, x ≠ .ok payload := by
  cases x <;> simp [Except.isOk, Except.toBool]

/-- Some attempt is the first that is authentic, unless none is. -/
theorem exists_first (tried : List (Bytes × String × Keyset)) :
    (∀ a ∈ tried, ∀ payload, Envelope.decrypt .standard a.2.2 a.1 ≠ .ok payload) ∨
    ∃ earlier sealed name keys later payload, tried = earlier ++ (sealed, name, keys) :: later ∧
      (∀ a ∈ earlier, ∀ payload, Envelope.decrypt .standard a.2.2 a.1 ≠ .ok payload) ∧
      Envelope.decrypt .standard keys sealed = .ok payload := by
  rcases hfirst : tried.find? fun a => (Envelope.decrypt .standard a.2.2 a.1).isOk with
    _ | ⟨sealed, name, keys⟩
  · refine .inl fun a ha => isOk_eq_false_iff.1 ?_
    simpa using List.find?_eq_none.1 hfirst a ha
  · obtain ⟨hok, earlier, later, hsplit, hearlier⟩ := List.find?_eq_some_iff_append.1 hfirst
    obtain ⟨payload, hopen⟩ : ∃ payload, Envelope.decrypt .standard keys sealed = .ok payload := by
      by_contra hnone
      push Not at hnone
      rw [isOk_eq_false_iff.2 hnone] at hok
      cases hok
    refine .inr ⟨earlier, sealed, name, keys, later, payload, hsplit, fun a ha => ?_, hopen⟩
    refine isOk_eq_false_iff.1 ?_
    simpa using hearlier a ha

theorem openAmong_ne_unusableKey (h : Usable candidates) (cause : CipherError) :
    openAmong linkStart candidates delivered ≠ .error (.unusableKey cause) := by
  rcases exists_first (attempts linkStart candidates delivered) with
    hnone | ⟨earlier, sealed, name, keys, later, payload, hsplit, hearlier, hopen⟩
  · rw [openAmong_of_none h hnone]
    simp
  · rw [openAmong_of_split h hsplit hearlier hopen]
    exact openedAs_ne_unusableKey cause

theorem attempts_filter (p : String × Keyset → Bool) :
    attempts linkStart (candidates.filter p) delivered =
      (attempts linkStart candidates delivered).filter fun a => p a.2 := by
  simp only [attempts, List.filter_flatMap, List.filter_map]
  rfl

theorem findSome?_filter_of {α β : Type} {p : α → Bool} {f : α → Option β} :
    ∀ {l : List α}, (∀ x ∈ l, p x = false → f x = none) → (l.filter p).findSome? f = l.findSome? f
  | [], _ => rfl
  | x :: l, h => by
    obtain ⟨hx, hl⟩ := List.forall_mem_cons.1 h
    rw [List.findSome?_cons]
    cases hp : p x with
    | true => rw [List.filter_cons_of_pos hp, List.findSome?_cons, findSome?_filter_of hl]
    | false => rw [List.filter_cons_of_neg (by simp [hp]), hx hp, findSome?_filter_of hl]

/-- Only the candidates that open a reading count. -/
theorem openAmong_filter_fits (h : Usable candidates) :
    openAmong linkStart (candidates.filter (fits linkStart delivered)) delivered =
      openAmong linkStart candidates delivered := by
  rw [openAmong_eq_answered, openAmong_eq_answered, attempts_filter, findSome?_filter_of]
  intro a ha hfits
  obtain ⟨sealed, hsealed, hmap⟩ := List.mem_flatMap.1 ha
  obtain ⟨candidate, hmem, rfl⟩ := List.mem_map.1 hmap
  refine h.answered_eq_none hmem (isOk_eq_false_iff.1 ?_)
  simpa using List.any_eq_false.1 hfits sealed hsealed

theorem openAmong_congr (h : Usable candidates) (hothers : Usable others)
    (hsame : others.filter (fits linkStart delivered) =
      candidates.filter (fits linkStart delivered)) :
    openAmong linkStart others delivered = openAmong linkStart candidates delivered := by
  rw [← openAmong_filter_fits hothers, hsame, openAmong_filter_fits h]

end Attempts

theorem TokenEncoding.delivers_wrap (e : TokenEncoding) (start : String) (sealed : Bytes) :
    Link.Delivers start (e.encode sealed) (Link.wrap start (e.encode sealed)) := by
  refine ⟨"", e.encode sealed, "/", ?_, fun _ _ _ => Nat.zero_le _, ?_, by simp⟩
  · rw [Link.wrap, String.empty_append]
  · refine List.filter_eq_self.2 fun c hc => ?_
    rw [(e.plain_of_mem_encode sealed c hc).2]
    rfl

/-- The first attempt that is authentic gives the answer, with the readings outermost and the
candidates innermost, and if there is none the answer is the one failure. Candidates that open no
reading do not count. Of an envelope nothing is told but that it is refused, and a key of the wrong
length is told apart whatever the envelope is. -/
theorem openAmong_exact :
    (∀ secret keys, Keyset.ofSecret secret = .ok keys → ∀ name, Usable [(name, keys)]) ∧
    (∀ linkStart delivered : String,
      readings linkStart delivered =
        (match TokenEncoding.base64url.decode (Link.unwrap linkStart delivered),
            TokenEncoding.base61.decode (Link.unwrap linkStart delivered) with
        | .ok first, .ok second => if second = first then [first] else [first, second]
        | .ok first, .error _ => [first]
        | .error _, .ok second => [second]
        | .error _, .error _ => []) ∧
      ∀ candidates, Usable candidates →
        let answer := openAmong linkStart candidates delivered
        let tried := attempts linkStart candidates delivered
        (∀ cause, answer ≠ .error (.unusableKey cause)) ∧
        ((∀ a ∈ tried, ∀ payload, Envelope.decrypt .standard a.2.2 a.1 ≠ .ok payload) →
          answer = .error .noneFits) ∧
        (∀ earlier sealed name keys later payload,
          tried = earlier ++ (sealed, name, keys) :: later →
          (∀ a ∈ earlier, ∀ payload, Envelope.decrypt .standard a.2.2 a.1 ≠ .ok payload) →
          Envelope.decrypt .standard keys sealed = .ok payload →
          (∀ message, Payload.read payload = .ok message → answer = .ok ⟨name, message⟩) ∧
          ((∃ feature, answer = .error (.unsupported feature)) ↔ payload.head? = some 2) ∧
          ((∀ message, Payload.read payload ≠ .ok message) → payload.head? ≠ some 2 →
            answer = .error .noneFits)) ∧
        ∀ others, Usable others →
          others.filter (fits linkStart delivered) = candidates.filter (fits linkStart delivered) →
          openAmong linkStart others delivered = answer) ∧
    ∀ (fresh : Engine) (sealed : Bytes),
      (∀ keys : Keyset,
        (∀ cause, Envelope.decrypt fresh keys sealed = .error (.unusableKey cause) ↔
          (keys.text.bytes.length ≠ fresh.keySize ∧ cause = fresh.wrongKey keys.text.bytes) ∨
          (keys.text.bytes.length = fresh.keySize ∧ keys.auth.bytes.length ≠ fresh.keySize ∧
            cause = fresh.wrongKey keys.auth.bytes)) ∧
        (keys.text.bytes.length = fresh.keySize → keys.auth.bytes.length = fresh.keySize →
          ∀ err, Envelope.decrypt fresh keys sealed = .error err → err = .refused)) ∧
      ∀ key : SecretKey,
        (∀ cause, Envelope.Salted.decrypt fresh key sealed = .error (.unusableKey cause) ↔
          key.bytes.length ≠ fresh.keySize ∧ cause = fresh.wrongKey key.bytes) ∧
        (key.bytes.length = fresh.keySize →
          ∀ err, Envelope.Salted.decrypt fresh key sealed = .error err → err = .refused) := by
  refine ⟨fun secret keys hkeys name c hc => ?_, fun linkStart delivered => ⟨readings_eq _ _, ?_⟩,
    fun fresh sealed => ⟨fun keys => ?_, fun key => ?_⟩⟩
  · rw [List.mem_singleton.1 hc]
    exact Keyset.length_ofSecret hkeys
  · intro candidates h answer tried
    refine ⟨openAmong_ne_unusableKey h, openAmong_of_none h, ?_, fun others => openAmong_congr h⟩
    intro earlier sealed name keys later payload hsplit hearlier hopen
    have hanswer : answer = openedAs name payload := openAmong_of_split h hsplit hearlier hopen
    rw [hanswer]
    exact ⟨fun message => openedAs_of_read, openedAs_unsupported_iff, openedAs_of_unreadable⟩
  · exact ⟨fun cause => Envelope.decrypt_unusableKey_iff,
      fun ht ha err => Envelope.decrypt_error_of_fits ht ha⟩
  · exact ⟨fun cause => Envelope.Salted.decrypt_unusableKey_iff,
      fun hk err => Envelope.Salted.decrypt_error_of_fits hk⟩

/-- A payload of the reserved kind is authentic and cannot be shown. -/
theorem reserved_unsupported :
    let keys : Keyset := ⟨⟨List.replicate 96 1⟩, ⟨List.replicate 96 2⟩⟩
    ∃ sealed feature, Envelope.encrypt .standard keys (List.replicate 16 3) [2] = .ok sealed ∧
      openAmong "cryptext://m/" [("bob", keys)]
          (Link.wrap "cryptext://m/" (TokenEncoding.base64url.encode sealed)) =
        .error (.unsupported feature) := by
  intro keys
  have husable : Usable [("bob", keys)] := by simp [Usable, keys]
  have ht : keys.text.bytes.length = 96 := rfl
  have ha : keys.auth.bytes.length = 96 := rfl
  have hiv : (List.replicate 16 3 : Bytes).length = 16 := rfl
  obtain ⟨sealed, hseal, hopen⟩ := exists_envelope ht ha hiv [2]
  obtain ⟨rest, hrest⟩ := readings_base64url (by decide)
    (TokenEncoding.base64url.delivers_wrap "cryptext://m/" sealed)
  obtain ⟨later, hsplit⟩ : ∃ later, attempts "cryptext://m/" [("bob", keys)]
      (Link.wrap "cryptext://m/" (TokenEncoding.base64url.encode sealed)) =
        [] ++ (sealed, "bob", keys) :: later := by
    rw [attempts, hrest]
    exact ⟨_, rfl⟩
  obtain ⟨-, -, hfirst, -⟩ := (openAmong_exact.2.1 "cryptext://m/"
    (Link.wrap "cryptext://m/" (TokenEncoding.base64url.encode sealed))).2 [("bob", keys)] husable
  obtain ⟨-, hreserved, -⟩ := hfirst [] sealed "bob" keys later [2] hsplit (by simp) hopen
  obtain ⟨feature, hanswer⟩ := hreserved.2 rfl
  exact ⟨sealed, feature, hseal, hanswer⟩

end SealedText
