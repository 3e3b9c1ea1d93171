import SealedText.Proofs.Base61Exact
import SealedText.Proofs.Delivery

/-!
# Lengths of tokens

Neither encoding writes three bytes in fewer than four characters, so what a text is read as is at
most three quarters as long as the text. An envelope has at least a vector and one more block: a text
that is too short for that opens under no key (`openAmong_of_short`).
-/

namespace SealedText

namespace Base64

variable {a : Alphabet}

theorem length_of_readSymbols : ∀ {text : Bytes} {offset : Nat} {ds : List Nat},
    readSymbols a offset text = .ok ds → ds.length = text.length
  | [], _, _, h => by
    cases h
    rfl
  | b :: text, offset, ds, h => by
    rw [readSymbols] at h
    split at h
    · cases h
    · obtain ⟨rest, hrest, hds⟩ := bind_eq_ok.1 h
      cases hds
      rw [List.length_cons, List.length_cons, length_of_readSymbols hrest]

theorem length_groupBytes (ds : List Nat) : (groupBytes ds).length = ds.length / 4 * 3 := by
  fun_induction groupBytes ds with
  | case1 d0 d1 d2 d3 rest ih =>
    rw [List.length_append, Bytes.length_ofNat, ih]
    simp only [List.length_cons]
    omega
  | case2 ds hshort =>
    have hlt : ds.length < 4 := by
      rcases ds with _ | ⟨d0, _ | ⟨d1, _ | ⟨d2, _ | ⟨d3, rest⟩⟩⟩⟩
      case cons.cons.cons.cons => exact absurd rfl (hshort d0 d1 d2 d3 rest)
      all_goals simp
    rw [List.length_nil]
    omega

theorem length_of_readTail : ∀ {tail : Bytes} {start pads padsAfter : Nat}
    {symbols out : List (UInt8 × Nat)},
    readTail a start symbols pads tail = .ok (out, padsAfter) →
      out.length ≤ symbols.length + tail.length
  | [], _, _, _, _, _, h => by
    cases h
    exact Nat.le_refl _
  | b :: tail, start, pads, padsAfter, symbols, out, h => by
    rw [readTail] at h
    split_ifs at h
    · have hle := length_of_readTail h
      rw [List.length_cons]
      omega
    · split at h
      · cases h
      · have hle := length_of_readTail h
        rw [List.length_append, List.length_singleton] at hle
        rw [List.length_cons]
        omega

theorem length_of_decodeTail {start : Nat} {tail data : Bytes}
    (h : decodeTail a start tail = .ok data) : 4 * data.length ≤ 3 * tail.length := by
  rw [decodeTail] at h
  obtain ⟨⟨symbols, pads⟩, hread, h⟩ := bind_eq_ok.1 h
  have hle := length_of_readTail hread
  simp only [] at h
  by_cases hempty : tail.isEmpty = true
  · rw [if_pos hempty] at h
    cases h
    exact Nat.zero_le _
  · rw [if_neg hempty] at h
    obtain ⟨-, h⟩ := check_bind_eq_ok.1 h
    obtain ⟨-, h⟩ := check_bind_eq_ok.1 h
    obtain ⟨-, h⟩ := check_bind_eq_ok.1 h
    cases h
    rw [Bytes.length_ofNat]
    rw [List.length_nil] at hle
    omega

theorem length_of_decode {text : String} {data : Bytes} (h : decode a text = .ok data) :
    4 * data.length ≤ 3 * text.toUTF8.toList.length := by
  rw [decode, decodeBytes] at h
  obtain ⟨-, h⟩ := check_bind_eq_ok.1 h
  obtain ⟨digits, hdigits, h⟩ := bind_eq_ok.1 h
  obtain ⟨last, hlast, h⟩ := bind_eq_ok.1 h
  cases h
  have hfirst := length_of_readSymbols hdigits
  have hgroups := length_groupBytes digits
  have htail := length_of_decodeTail hlast
  rw [List.length_take] at hfirst
  rw [List.length_drop] at htail
  rw [List.length_append]
  omega

theorem length_encodeBytes_url (data : Bytes) :
    (encodeBytes url data).length = (4 * data.length + 2) / 3 := by
  fun_induction encodeBytes url data with
  | case1 => rfl
  | case2 x n => simp [Alphabet.padding, url]
  | case3 x y n => simp [Alphabet.padding, url]
  | case4 x y z rest n ih =>
    simp only [List.length_cons, ih]
    omega

end Base64

namespace Base61

theorem length_flatMap_groupDigits_ge : ∀ {blocks : List Bytes}, (∀ b ∈ blocks, b.length ≤ 8) →
    4 * blocks.flatten.length ≤ 3 * (blocks.flatMap groupDigits).length
  | [], _ => Nat.zero_le _
  | b :: blocks, h => by
    obtain ⟨hb, hblocks⟩ := List.forall_mem_cons.1 h
    have hcount : ∀ n ≤ 8, 4 * n ≤ 3 * symbolCount n := by decide
    have hfirst := hcount b.length hb
    have hrest := length_flatMap_groupDigits_ge hblocks
    rw [List.flatten_cons, List.flatMap_cons, List.length_append, List.length_append, groupDigits,
      length_digits]
    omega

theorem length_digitsOf_ge (data : Bytes) : 4 * data.length ≤ 3 * (digitsOf data).length := by
  have hblocks : ∀ b ∈ blocksOf groupBytes data, b.length ≤ 8 :=
    fun b hb => (length_of_mem_blocksOf_le (show 0 < groupBytes by decide) b hb).2
  have hall := length_flatMap_groupDigits_ge hblocks
  rwa [flatten_blocksOf] at hall

theorem length_of_decode {text : String} {data : Bytes} (h : decode text = .ok data) :
    4 * data.length ≤ 3 * text.toList.length := by
  have hle := length_digitsOf_ge data
  have hvisible : (visible text).length ≤ text.toList.length := List.length_filter_le _ _
  rw [decode_ok_iff.1 h, toList_encode, List.length_map] at hvisible
  omega

end Base61

theorem length_toList_le (text : String) : text.toList.length ≤ text.toUTF8.toList.length := by
  rw [toList_toUTF8]
  induction text.toList with
  | nil => exact Nat.le_refl _
  | cons c cs ih =>
    have hc := c.utf8Size_pos
    rw [List.length_cons, List.flatMap_cons, List.length_append, String.length_utf8EncodeChar]
    omega

theorem TokenEncoding.length_of_decode {e : TokenEncoding} {text : String} {data : Bytes}
    (h : e.decode text = .ok data) : 4 * data.length ≤ 3 * text.toUTF8.toList.length := by
  unfold decode at h
  cases e with
  | base64url => exact Base64.length_of_decode (mapError_eq_ok.1 h)
  | base61 =>
    have hle := length_toList_le text
    have hdata := Base61.length_of_decode (mapError_eq_ok.1 h)
    omega

/-- An envelope is a vector and at least one more block. -/
theorem Envelope.blocks_of_encloses {text auth : SecretKey} (ht : text.bytes.length = 96)
    (ha : auth.bytes.length = 96) {iv payload sealed : Bytes} (hiv : iv.length = 16)
    (h : Encloses .standard text auth iv payload sealed) :
    ∃ k, 2 ≤ k ∧ sealed.length = 16 * k := by
  have hlen := length_of_encloses Engine.lawful_standard (by decide) ht ha hiv h
  have hblock : Engine.standard.blockSize = 16 := rfl
  rw [hblock, tagSize, padLength] at hlen
  exact ⟨2 + (8 + payload.length) / 16, by omega, by omega⟩

theorem blocks_of_decrypt {keys : Keyset} (ht : keys.text.bytes.length = 96)
    (ha : keys.auth.bytes.length = 96) {sealed payload : Bytes}
    (h : Envelope.decrypt .standard keys sealed = .ok payload) :
    ∃ k, 2 ≤ k ∧ sealed.length = 16 * k := by
  obtain ⟨iv, hiv, henc⟩ :=
    (Envelope.decrypt_ok_iff Engine.lawful_standard (by decide) (by decide) ht ha).1 h
  exact Envelope.blocks_of_encloses ht ha hiv henc

theorem openAmong_of_short {linkStart delivered : String} {candidates : List (String × Keyset)}
    (hkeys : ∀ c ∈ candidates, c.2.text.bytes.length = 96 ∧ c.2.auth.bytes.length = 96)
    (hshort : (Link.unwrap linkStart delivered).toUTF8.toList.length < 43) :
    openAmong linkStart candidates delivered = .error .noneFits := by
  have hnone : ((attempts linkStart candidates delivered).findSome? fun a =>
      settle a.2.1 (Envelope.decrypt .standard a.2.2 a.1)) = none := by
    rw [List.findSome?_eq_none_iff]
    intro a ha
    obtain ⟨ht, hauth⟩ := hkeys a.2 (mem_of_mem_attempts ha)
    refine settle_decrypt_eq_none ht hauth a.2.1 fun payload hopen => ?_
    obtain ⟨sealed, hsealed, hmap⟩ := List.mem_flatMap.1 ha
    obtain ⟨candidate, -, rfl⟩ := List.mem_map.1 hmap
    obtain ⟨e, hread⟩ := mem_readings_iff.1 hsealed
    obtain ⟨k, hk, hlow⟩ := blocks_of_decrypt ht hauth hopen
    have hhigh := TokenEncoding.length_of_decode hread
    simp only at hlow
    omega
  rw [openAmong_eq, hnone, Option.getD_none]

end SealedText
