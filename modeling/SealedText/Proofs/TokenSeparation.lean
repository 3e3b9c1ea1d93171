import SealedText.Proofs.BareToken
import SealedText.Proofs.OpeningAnswer

/-!
# Base61 tokens read as base64

Every Base61 symbol is a base64 symbol too, and a reader tries base64 first. What keeps the two apart
is lengths. An envelope of the standard cipher is `16 * k` bytes, which Base61 writes in `22 * k`
symbols, and these are `33 * k / 2` bytes in base64. Unless `k` leaves 0 or 1 on division by 32 that
is no whole number of blocks, so no key opens it, and the answer to a Base61 token is the answer to
its envelope alone (`misread_refused`).
-/

namespace SealedText

/-! ## Lengths of what is read -/

namespace Base64

variable {a : Alphabet}

theorem length_of_readTail_unpadded : ∀ {tail : Bytes} {start padsAfter : Nat}
    {symbols out : List (UInt8 × Nat)}, padByte ∉ tail →
    readTail a start symbols 0 tail = .ok (out, padsAfter) →
      out.length = symbols.length + tail.length
  | [], _, _, _, _, _, h => by
    cases h
    rfl
  | b :: tail, start, padsAfter, symbols, out, hpad, h => by
    obtain ⟨hb, htail⟩ := List.ne_and_not_mem_of_not_mem_cons hpad
    rw [readTail, if_neg hb.symm, if_neg (Nat.lt_irrefl 0)] at h
    split at h
    · cases h
    · rw [length_of_readTail_unpadded htail h, List.length_append, List.length_singleton,
        List.length_cons]
      omega

theorem length_of_decodeTail_unpadded {start : Nat} {tail data : Bytes} (hpad : padByte ∉ tail)
    (h : decodeTail a start tail = .ok data) : data.length = tail.length * 6 / 8 := by
  rw [decodeTail] at h
  obtain ⟨⟨symbols, pads⟩, hread, h⟩ := bind_eq_ok.1 h
  have hcount := length_of_readTail_unpadded hpad hread
  rw [List.length_nil, Nat.zero_add] at hcount
  simp only [] at h
  by_cases hempty : tail.isEmpty = true
  · rw [if_pos hempty] at h
    cases h
    rw [List.isEmpty_iff.1 hempty]
    rfl
  · rw [if_neg hempty] at h
    obtain ⟨-, h⟩ := check_bind_eq_ok.1 h
    obtain ⟨-, h⟩ := check_bind_eq_ok.1 h
    obtain ⟨-, h⟩ := check_bind_eq_ok.1 h
    cases h
    rw [Bytes.length_ofNat, hcount]

/-- Without padding the length of the text is that of the data. -/
theorem length_of_decode_unpadded {text : String} {data : Bytes}
    (hpad : padByte ∉ text.toUTF8.toList) (h : decode a text = .ok data) :
    data.length = text.toUTF8.toList.length * 6 / 8 := by
  rw [decode, decodeBytes] at h
  obtain ⟨-, h⟩ := check_bind_eq_ok.1 h
  obtain ⟨digits, hdigits, h⟩ := bind_eq_ok.1 h
  obtain ⟨last, hlast, h⟩ := bind_eq_ok.1 h
  cases h
  have hfirst := length_of_readSymbols hdigits
  have htail := length_of_decodeTail_unpadded (fun hmem => hpad (List.mem_of_mem_drop hmem)) hlast
  rw [List.length_take, tailStart] at hfirst
  rw [List.length_drop, tailStart] at htail
  rw [List.length_append, length_groupBytes]
  omega

end Base64

namespace Base61

/-- Full groups only: eleven symbols for eight bytes. -/
theorem length_digitsOf_of_whole {data : Bytes} (h : data.length % 8 = 0) :
    8 * (digitsOf data).length = 11 * data.length := by
  have hgroups : ∀ g ∈ blocksOf groupBytes data, g.length = 8 :=
    length_of_mem_blocksOf (by decide) h
  have hsymbols : ∀ ds ∈ (blocksOf groupBytes data).map groupDigits, ds.length = 11 := by
    intro ds hds
    obtain ⟨g, hg, rfl⟩ := List.mem_map.1 hds
    rw [groupDigits, length_digits, hgroups g hg]
    rfl
  have hbytes := length_flatten_of_length hgroups
  rw [flatten_blocksOf] at hbytes
  rw [digitsOf, List.flatMap_def, length_flatten_of_length hsymbols, List.length_map]
  omega

theorem toUTF8_encode (data : Bytes) :
    (encode data).toUTF8.toList = (digitsOf data).map fun d => UInt8.ofNat (symbol d).toNat := by
  have hsymbol : ∀ d < 61, String.utf8EncodeChar (symbol d) = [UInt8.ofNat (symbol d).toNat] := by
    decide
  rw [toList_toUTF8, toList_encode, List.flatMap_map, List.map_eq_flatMap]
  exact List.flatMap_congr fun d hd => hsymbol d (lt_of_mem_digitsOf d hd)

theorem padByte_not_mem_encode (data : Bytes) : Base64.padByte ∉ (encode data).toUTF8.toList := by
  have hsymbol : ∀ d < 61, UInt8.ofNat (symbol d).toNat ≠ Base64.padByte := by decide
  rw [toUTF8_encode, List.mem_map]
  rintro ⟨d, hd, heq⟩
  exact hsymbol d (lt_of_mem_digitsOf d hd) heq

end Base61

/-- Base64 reads 33 bytes where Base61 wrote two blocks. -/
theorem length_of_misread {sealed other : Bytes} {k : Nat} (hlen : sealed.length = 16 * k)
    (h : TokenEncoding.base64url.decode (TokenEncoding.base61.encode sealed) = .ok other) :
    other.length = 33 * k / 2 := by
  have hwhole : sealed.length % 8 = 0 := by omega
  have hsymbols := Base61.length_digitsOf_of_whole hwhole
  have hdata := Base64.length_of_decode_unpadded (Base61.padByte_not_mem_encode sealed)
    (mapError_eq_ok.1 h)
  rw [Base61.toUTF8_encode, List.length_map] at hdata
  omega

/-! ## Envelopes -/

namespace Envelope

/-- The standard cipher sealed this, in one of the two forms. -/
def IsStandard (sealed : Bytes) : Prop :=
  (∃ keys iv payload, encrypt .standard keys iv payload = .ok sealed) ∨
    ∃ key iv salt payload, Salted.encrypt .standard key iv salt payload = .ok sealed

theorem checkLength_ok {fresh : Engine} {key : SecretKey} {u : Unit}
    (h : checkLength fresh key = .ok u) : key.bytes.length = fresh.keySize := by
  by_contra hk
  rw [checkLength_of_ne hk] at h
  cases h

/-- Nothing is enclosed with a vector that is not one block. -/
theorem length_of_iv {fresh : Engine} {text auth : SecretKey} {iv payload sealed : Bytes}
    (h : Encloses fresh text auth iv payload sealed) : iv.length = fresh.blockSize := by
  obtain ⟨engine, _, _, hkey, -, hchain, -⟩ := h
  rw [← Engine.blockSize_of_keyedWith hkey]
  exact ((Engine.chainEncrypt_ok_iff ..).1 hchain).1

theorem IsStandard.blocks {sealed : Bytes} (h : IsStandard sealed) :
    ∃ k, 2 ≤ k ∧ sealed.length = 16 * k := by
  rcases h with ⟨keys, iv, payload, h⟩ | ⟨key, iv, salt, payload, h⟩
  · obtain ⟨_, ht, h₁⟩ := bind_eq_ok.1 h
    obtain ⟨_, ha, -⟩ := bind_eq_ok.1 h₁
    have henc := (encrypt_ok_iff (checkLength_ok ht) (checkLength_ok ha)).1 h
    exact blocks_of_encloses (checkLength_ok ht) (checkLength_ok ha) (length_of_iv henc) henc
  · obtain ⟨_, hk, -⟩ := bind_eq_ok.1 h
    have henc := (Salted.encrypt_ok_iff (checkLength_ok hk)).1 h
    exact blocks_of_encloses (checkLength_ok hk) (checkLength_ok hk) (length_of_iv henc) henc

/-- What is no whole number of blocks is refused under all keys that fit. -/
theorem decrypt_of_ragged {sealed : Bytes} (h : sealed.length % 16 ≠ 0) {keys : Keyset}
    (ht : keys.text.bytes.length = 96) (ha : keys.auth.bytes.length = 96) :
    decrypt .standard keys sealed = .error .refused := by
  cases hopen : decrypt .standard keys sealed with
  | error err => rw [decrypt_error_of_fits ht ha hopen]
  | ok payload =>
    obtain ⟨k, -, hlen⟩ := blocks_of_decrypt ht ha hopen
    omega

theorem Salted.decrypt_of_ragged {sealed : Bytes} (h : sealed.length % 16 ≠ 0) {key : SecretKey}
    (hk : key.bytes.length = 96) : decrypt .standard key sealed = .error .refused := by
  cases hopen : decrypt .standard key sealed with
  | error err => rw [decrypt_error_of_fits hk hopen]
  | ok payload =>
    obtain ⟨iv, salt, hiv, -, henc⟩ :=
      (decrypt_ok_iff Engine.lawful_standard (by decide) (by decide) hk).1 hopen
    obtain ⟨k, -, hlen⟩ := blocks_of_encloses hk hk hiv henc
    omega

end Envelope

/-! ## The answer -/

/-- The answer that the candidates give on one envelope alone. -/
def openSealed (candidates : List (String × Keyset)) (sealed : Bytes) :
    Except OpeningError OpenedMessage :=
  (candidates.findSome? fun candidate =>
    settle candidate.1 (Envelope.decrypt .standard candidate.2 sealed)).getD (.error .noneFits)

/-- A Base61 token is opened as its envelope, if nothing opens what base64 reads in it. -/
theorem openAmong_of_base61 {linkStart delivered : String} {candidates : List (String × Keyset)}
    {sealed : Bytes} (husable : Usable candidates)
    (h : Link.unwrap linkStart delivered = TokenEncoding.base61.encode sealed)
    (hother : ∀ other,
      TokenEncoding.base64url.decode (TokenEncoding.base61.encode sealed) = .ok other →
        ∀ c ∈ candidates, ∀ payload, Envelope.decrypt .standard c.2 other ≠ .ok payload) :
    openAmong linkStart candidates delivered = openSealed candidates sealed := by
  have halone : (candidates.map fun c => (sealed, c)).findSome? answered =
      candidates.findSome? fun c => settle c.1 (Envelope.decrypt .standard c.2 sealed) :=
    List.findSome?_map ..
  have hread := readings_eq linkStart delivered
  rw [h, TokenEncoding.decode_encode] at hread
  rw [openAmong_eq_answered, openSealed, ← halone, attempts]
  cases hbase64 : TokenEncoding.base64url.decode (TokenEncoding.base61.encode sealed) with
  | error err =>
    rw [hbase64] at hread
    rw [hread, List.flatMap_singleton]
  | ok other =>
    have hnone : (candidates.map fun c => (other, c)).findSome? answered = none := by
      refine List.findSome?_eq_none_iff.2 fun a ha => ?_
      obtain ⟨c, hc, rfl⟩ := List.mem_map.1 ha
      exact husable.answered_eq_none hc (hother other hbase64 c hc)
    rw [hbase64] at hread
    simp only [] at hread
    split_ifs at hread with hsame
    · rw [hread, List.flatMap_singleton, hsame]
    · rw [hread, List.flatMap_cons, List.flatMap_singleton, List.findSome?_append, hnone,
        Option.none_or]

/-- An envelope of the standard cipher is at least two blocks. Unless their number leaves 0 or 1 on
division by 32, which takes 512 bytes, what base64 reads in its Base61 token is refused under all
keys, and candidates give the answer that they give on the envelope alone. -/
theorem misread_refused {sealed : Bytes} (h : Envelope.IsStandard sealed) :
    ∃ k, 2 ≤ k ∧ sealed.length = 16 * k ∧
      (sealed.length < 512 → k % 32 ≠ 0 ∧ k % 32 ≠ 1) ∧
      (k % 32 ≠ 0 ∧ k % 32 ≠ 1 →
        (∀ other,
          TokenEncoding.base64url.decode (TokenEncoding.base61.encode sealed) = .ok other →
            (∀ keys : Keyset, keys.text.bytes.length = 96 → keys.auth.bytes.length = 96 →
              Envelope.decrypt .standard keys other = .error .refused) ∧
            ∀ key : SecretKey, key.bytes.length = 96 →
              Envelope.Salted.decrypt .standard key other = .error .refused) ∧
        ∀ (linkStart : String) (candidates : List (String × Keyset)), Usable candidates →
          ¬ Link.OccursIn linkStart (TokenEncoding.base61.encode sealed) →
            openAmong linkStart candidates (TokenEncoding.base61.encode sealed) =
              openSealed candidates sealed) := by
  obtain ⟨k, hk, hlen⟩ := h.blocks
  refine ⟨k, hk, hlen, fun hshort => by omega, fun hrest => ?_⟩
  have hragged : ∀ other,
      TokenEncoding.base64url.decode (TokenEncoding.base61.encode sealed) = .ok other →
        other.length % 16 ≠ 0 := by
    intro other hread
    have hdiv : 33 * k / 2 = 16 * k + k / 2 := by omega
    rw [length_of_misread hlen hread, hdiv, Nat.mul_add_mod]
    omega
  refine ⟨fun other hread => ?_, fun linkStart candidates husable hno => ?_⟩
  · exact ⟨fun keys => Envelope.decrypt_of_ragged (hragged other hread),
      fun key => Envelope.Salted.decrypt_of_ragged (hragged other hread)⟩
  · refine openAmong_of_base61 husable ?_ fun other hread c hc payload hopen => ?_
    · have hplain : ∀ c ∈ (TokenEncoding.base61.encode sealed).toList, isBlank c = false :=
        fun c hc => (TokenEncoding.plain_of_mem_encode _ sealed c hc).2
      rw [Link.unwrap_of_not_occurs hno, Link.filter_of_plain hplain, String.ofList_toList]
    · obtain ⟨ht, ha⟩ := husable c hc
      rw [Envelope.decrypt_of_ragged (hragged other hread) ht ha] at hopen
      cases hopen

theorem base61Token_opens :
    let keys : Keyset := ⟨⟨List.replicate 96 1⟩, ⟨List.replicate 96 2⟩⟩
    ∃ sealed, Envelope.encrypt .standard keys (List.replicate 16 3)
          (Payload.ofMessage 6 (.text "hi")) = .ok sealed ∧
      sealed.length = 32 ∧
      openAmong "cryptext://m/" [("bob", keys)] (TokenEncoding.base61.encode sealed) =
        .ok ⟨"bob", .text "hi"⟩ := by
  intro keys
  have ht : keys.text.bytes.length = 96 := rfl
  have ha : keys.auth.bytes.length = 96 := rfl
  have hiv : (List.replicate 16 (3 : UInt8)).length = Engine.standard.blockSize := rfl
  obtain ⟨sealed, hseal, hopen⟩ := exists_envelope ht ha hiv (Payload.ofMessage 6 (.text "hi"))
  have hlen : sealed.length = 32 := by
    have hpayload : (Payload.ofMessage 6 (.text "hi")).length ≤ 3 := by
      have hsize : ("hi" : String).toUTF8.size = 2 := by decide
      rw [Payload.ofMessage, Payload.length_ofText, hsize]
      omega
    have henc := (Envelope.encrypt_ok_iff ht ha).1 hseal
    have hlen := Envelope.length_of_encloses Engine.lawful_standard (by decide) ht ha hiv henc
    have hblock : Engine.standard.blockSize = 16 := rfl
    rw [hblock, tagSize, padLength] at hlen
    omega
  obtain ⟨k, -, -, hsmall, happly⟩ := misread_refused (.inl ⟨keys, _, _, hseal⟩)
  have hcolon : ∃ c ∈ "cryptext://m/".toList, c ∉ TokenEncoding.base61.alphabet :=
    ⟨':', by decide, by decide⟩
  have husable : Usable [("bob", keys)] := by simp [Usable, keys]
  have hanswer := (happly (hsmall (by omega))).2 "cryptext://m/" [("bob", keys)] husable
    (TokenEncoding.not_occursIn_encode hcolon sealed)
  refine ⟨sealed, hseal, hlen, hanswer.trans ?_⟩
  rw [openSealed, List.findSome?_singleton, hopen, settle_ofMessage "bob" 6 (by decide),
    Option.getD_some]

end SealedText
