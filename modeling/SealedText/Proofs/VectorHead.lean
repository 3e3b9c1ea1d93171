import SealedText.Proofs.OpeningAnswer

/-!
# The head of the vector is authenticated

The vector is added to the first block that comes out of the cipher and to nothing else
(`chainDecrypt_of_two`). The tag stands at the front of that block, so what changes in the first
eight bytes of an envelope changes in the tag only: the payload behind it stays, and has one tag.
Among the envelopes that agree from the ninth byte on, at most one is accepted
(`head_authenticated`), also where tag, payload and padding share a block.
-/

namespace SealedText

/-! ## Padding -/

section Padding

variable {n k : Nat} {padded padded₁ message message₁ : Bytes}

theorem unpad?_eq_some (h : unpad? n padded = some message) :
    0 < (padded.getLastD 0).toNat ∧
      message = padded.take (padded.length - (padded.getLastD 0).toNat) := by
  simp only [unpad?] at h
  split_ifs at h with hbad
  exact ⟨by omega, (Option.some.inj h).symm⟩

theorem length_lt_of_unpad? (h : unpad? n padded = some message) :
    message.length < padded.length := by
  obtain ⟨hpos, rfl⟩ := unpad?_eq_some h
  have hne : padded ≠ [] := by
    rintro rfl
    exact absurd hpos (by decide)
  have hlen := List.length_pos_iff.2 hne
  rw [List.length_take]
  omega

/-- Two padded messages that agree from some byte on, within both messages, have the same padding.
So the messages agree from there on too, and what tells them apart stands in front of it. -/
theorem unpad?_of_drop_eq (h : unpad? n padded = some message)
    (h₁ : unpad? n padded₁ = some message₁) (hlen : padded.length = padded₁.length)
    (hk : k ≤ message.length) (hdrop : padded.drop k = padded₁.drop k) :
    message.drop k = message₁.drop k ∧
      (message.take k = message₁.take k → padded = padded₁) := by
  have hshort := length_lt_of_unpad? h
  have hlast : padded.getLast? = padded₁.getLast? := by
    have hdropLast := congrArg List.getLast? hdrop
    rwa [List.getLast?_drop, List.getLast?_drop, if_neg (by omega), if_neg (by omega)] at hdropLast
  have hmark : padded₁.getLastD 0 = padded.getLastD 0 := by
    rw [List.getLastD_eq_getLast?, List.getLastD_eq_getLast?, hlast]
  obtain ⟨-, hmessage⟩ := unpad?_eq_some h
  obtain ⟨-, hmessage₁⟩ := unpad?_eq_some h₁
  rw [hmark, ← hlen] at hmessage₁
  have hfirst : k ≤ padded.length - (padded.getLastD 0).toNat := by
    rw [hmessage, List.length_take] at hk
    omega
  constructor
  · rw [hmessage, hmessage₁, List.drop_take, List.drop_take, hdrop]
  · intro htake
    rw [hmessage, hmessage₁, List.take_take, List.take_take, Nat.min_eq_left hfirst] at htake
    rw [← List.take_append_drop k padded, htake, hdrop, List.take_append_drop]

end Padding

theorem Bytes.drop_xor (k : Nat) (a b : Bytes) :
    (a.xor b).drop k = Bytes.xor (a.drop k) (b.drop k) :=
  List.drop_zipWith

/-! ## Two vectors -/

namespace Engine

variable {n k : Nat} {enc dec : Engine} {iv iv₁ sealed message message₁ : Bytes}

/-- Under two vectors a ciphertext decrypts to the same bytes, to whose first block the vectors are
added before the padding is taken off. -/
theorem chainDecrypt_of_two (h : Inverse n enc dec) (hdec : dec.blockSize = n) (hn : 0 < n)
    (hopen : dec.chainDecrypt iv sealed = .ok message)
    (hopen₁ : dec.chainDecrypt iv₁ sealed = .ok message₁) :
    ∃ first later : Bytes, first.length = n ∧ unpad? n (first.xor iv ++ later) = some message ∧
      unpad? n (first.xor iv₁ ++ later) = some message₁ := by
  obtain ⟨-, hne, hmod, blocks, hblocks, hu⟩ := (chainDecrypt_ok_iff ..).1 hopen
  obtain ⟨-, -, -, blocks₁, hblocks₁, hu₁⟩ := (chainDecrypt_ok_iff ..).1 hopen₁
  rw [hdec] at hmod hblocks hblocks₁ hu hu₁
  obtain ⟨block, rest, hcut⟩ := List.exists_cons_of_ne_nil (blocksOf_ne_nil n hne)
  have hblock : block.length = n :=
    length_of_mem_blocksOf hn hmod block (by rw [hcut]; exact List.mem_cons_self)
  rw [hcut] at hblocks hblocks₁
  obtain ⟨first, later, rfl, hfirst, hlater⟩ := (decryptBlocks_cons_iff ..).1 hblocks
  obtain ⟨first₁, later₁, rfl, hfirst₁, hlater₁⟩ := (decryptBlocks_cons_iff ..).1 hblocks₁
  rw [hfirst] at hfirst₁
  cases hfirst₁
  rw [hlater] at hlater₁
  cases hlater₁
  exact ⟨first, later.flatten, (length_of_process h hblock).2 hfirst, hu, hu₁⟩

/-- Vectors that agree from a byte on, within the message, decrypt a ciphertext to messages that
agree from there on; and if the messages agree in front of it as well, the vectors are the same. -/
theorem chainDecrypt_of_drop_eq (h : Inverse n enc dec) (hdec : dec.blockSize = n) (hn : 0 < n)
    (hopen : dec.chainDecrypt iv sealed = .ok message)
    (hopen₁ : dec.chainDecrypt iv₁ sealed = .ok message₁) (hk : k ≤ message.length)
    (hdrop : iv.drop k = iv₁.drop k) :
    message.drop k = message₁.drop k ∧ (message.take k = message₁.take k → iv = iv₁) := by
  obtain ⟨hiv, -⟩ := (chainDecrypt_ok_iff ..).1 hopen
  obtain ⟨hiv₁, -⟩ := (chainDecrypt_ok_iff ..).1 hopen₁
  obtain ⟨first, later, hfirst, hu, hu₁⟩ := chainDecrypt_of_two h hdec hn hopen hopen₁
  have hlen : (first.xor iv).length = (first.xor iv₁).length := by
    rw [Bytes.length_xor, Bytes.length_xor, hiv, hiv₁]
  have hsame : (first.xor iv ++ later).drop k = (first.xor iv₁ ++ later).drop k := by
    rw [List.drop_append, List.drop_append, Bytes.drop_xor, Bytes.drop_xor, hdrop, hlen]
  obtain ⟨hbehind, hfront⟩ := unpad?_of_drop_eq hu hu₁ (by simp [hlen]) hk hsame
  refine ⟨hbehind, fun htake => ?_⟩
  have hmasked := (List.append_inj (hfront htake) hlen).1
  rw [← Bytes.xor_xor_left (a := first) (b := iv) (by omega), hmasked,
    Bytes.xor_xor_left (by omega)]

end Engine

/-! ## Envelopes -/

namespace Envelope

variable {fresh : Engine} {text auth : SecretKey} {shortest : Nat}

/-- Of the envelopes that agree behind the place of the tag, at most one opens: what is behind the
tag is the same in all, and it has one tag. -/
theorem eq_of_opened? (h : fresh.Lawful) (hlow : tagSize ≤ fresh.blockSize)
    (ht : text.bytes.length = fresh.keySize) (hshort : tagSize ≤ shortest)
    {sealed sealed₁ payload payload₁ : Bytes}
    (hopen : opened? fresh text auth shortest sealed = some payload)
    (hopen₁ : opened? fresh text auth shortest sealed₁ = some payload₁)
    (hdrop : sealed.drop tagSize = sealed₁.drop tagSize) : sealed = sealed₁ := by
  have hpos : 0 < fresh.blockSize := Nat.lt_of_lt_of_le (by decide) hlow
  obtain ⟨enc, dec, -, hdec, -, hdecSize, hinv⟩ := h.exists_keyed ht
  rw [opened?, Option.bind_eq_some_iff] at hopen hopen₁
  obtain ⟨inner, hinner, hauth⟩ := hopen
  obtain ⟨inner₁, hinner₁, hauth₁⟩ := hopen₁
  split_ifs at hauth hauth₁ with hlen hlen₁
  obtain ⟨-, e, he, hchain⟩ := disclose?_eq_some_iff.1 hinner
  obtain ⟨-, e₁, he₁, hchain₁⟩ := disclose?_eq_some_iff.1 hinner₁
  rw [hdec] at he he₁
  cases he
  cases he₁
  obtain ⟨hpayload, htag⟩ := authentic?_eq_some_iff.1 hauth
  obtain ⟨hpayload₁, htag₁⟩ := authentic?_eq_some_iff.1 hauth₁
  have hcipher : sealed.drop fresh.blockSize = sealed₁.drop fresh.blockSize := by
    have hmore := congrArg (List.drop (fresh.blockSize - tagSize)) hdrop
    rwa [List.drop_drop, List.drop_drop, Nat.add_sub_cancel' hlow] at hmore
  have hvector : (sealed.take fresh.blockSize).drop tagSize =
      (sealed₁.take fresh.blockSize).drop tagSize := by
    rw [List.drop_take, List.drop_take, hdrop]
  rw [← hcipher] at hchain₁
  obtain ⟨hbehind, hfront⟩ :=
    Engine.chainDecrypt_of_drop_eq hinv hdecSize hpos hchain hchain₁ (by omega) hvector
  rw [← hpayload₁, ← hbehind, hpayload, htag] at htag₁
  have hiv := hfront (Except.ok.inj htag₁)
  rw [← List.take_append_drop fresh.blockSize sealed, hiv, hcipher, List.take_append_drop]

theorem eq_of_decrypt (h : fresh.Lawful) (hlow : tagSize ≤ fresh.blockSize) {keys : Keyset}
    (ht : keys.text.bytes.length = fresh.keySize) (ha : keys.auth.bytes.length = fresh.keySize)
    {sealed sealed₁ payload payload₁ : Bytes} (hopen : decrypt fresh keys sealed = .ok payload)
    (hopen₁ : decrypt fresh keys sealed₁ = .ok payload₁)
    (hdrop : sealed.drop tagSize = sealed₁.drop tagSize) : sealed = sealed₁ := by
  rw [decrypt_eq ht ha] at hopen hopen₁
  obtain ⟨inside, hinside, -⟩ := elim_eq_ok.1 hopen
  obtain ⟨inside₁, hinside₁, -⟩ := elim_eq_ok.1 hopen₁
  exact eq_of_opened? h hlow ht Nat.le.refl hinside hinside₁ hdrop

theorem Salted.eq_of_decrypt (h : fresh.Lawful) (hlow : tagSize ≤ fresh.blockSize) {key : SecretKey}
    (hk : key.bytes.length = fresh.keySize) {sealed sealed₁ payload payload₁ : Bytes}
    (hopen : decrypt fresh key sealed = .ok payload)
    (hopen₁ : decrypt fresh key sealed₁ = .ok payload₁)
    (hdrop : sealed.drop tagSize = sealed₁.drop tagSize) : sealed = sealed₁ := by
  rw [Salted.decrypt_eq hk] at hopen hopen₁
  obtain ⟨inside, hinside, -⟩ := elim_eq_ok.1 hopen
  obtain ⟨inside₁, hinside₁, -⟩ := elim_eq_ok.1 hopen₁
  exact eq_of_opened? h hlow hk (Nat.le_add_right ..) hinside hinside₁ hdrop

/-- If an envelope is accepted, in either form, another one of its length that differs from it in
the first eight bytes only is refused. So of all envelopes with the same bytes from the ninth on, at
most one is accepted. -/
theorem head_authenticated (h : fresh.Lawful) (hlow : 8 ≤ fresh.blockSize) :
    (∀ keys : Keyset, keys.text.bytes.length = fresh.keySize →
      keys.auth.bytes.length = fresh.keySize →
      (∀ sealed payload other : Bytes, decrypt fresh keys sealed = .ok payload →
        other.length = sealed.length → other.drop 8 = sealed.drop 8 → other ≠ sealed →
          decrypt fresh keys other = .error .refused) ∧
      ∀ rest : Bytes, {sealed | sealed.drop 8 = rest ∧
        ∃ payload, decrypt fresh keys sealed = .ok payload}.Subsingleton) ∧
    ∀ key : SecretKey, key.bytes.length = fresh.keySize →
      (∀ sealed payload other : Bytes, Salted.decrypt fresh key sealed = .ok payload →
        other.length = sealed.length → other.drop 8 = sealed.drop 8 → other ≠ sealed →
          Salted.decrypt fresh key other = .error .refused) ∧
      ∀ rest : Bytes, {sealed | sealed.drop 8 = rest ∧
        ∃ payload, Salted.decrypt fresh key sealed = .ok payload}.Subsingleton := by
  refine ⟨fun keys ht ha => ⟨?_, ?_⟩, fun key hk => ⟨?_, ?_⟩⟩
  · intro sealed payload other hopen _ hdrop hne
    cases hother : decrypt fresh keys other with
    | error err => rw [decrypt_error_of_fits ht ha hother]
    | ok payload₁ => exact absurd (eq_of_decrypt h hlow ht ha hother hopen hdrop) hne
  · rintro rest sealed ⟨hdrop, payload, hopen⟩ sealed₁ ⟨hdrop₁, payload₁, hopen₁⟩
    exact eq_of_decrypt h hlow ht ha hopen hopen₁ (hdrop.trans hdrop₁.symm)
  · intro sealed payload other hopen _ hdrop hne
    cases hother : Salted.decrypt fresh key other with
    | error err => rw [Salted.decrypt_error_of_fits hk hother]
    | ok payload₁ => exact absurd (Salted.eq_of_decrypt h hlow hk hother hopen hdrop) hne
  · rintro rest sealed ⟨hdrop, payload, hopen⟩ sealed₁ ⟨hdrop₁, payload₁, hopen₁⟩
    exact Salted.eq_of_decrypt h hlow hk hopen hopen₁ (hdrop.trans hdrop₁.symm)

/-- The envelope of two bytes is accepted, and refused with a bit of its first byte flipped. -/
theorem flippedHead_refused :
    decrypt Engine.nestedMasks maskKeys maskSealed = .ok [104, 105] ∧
      decrypt Engine.nestedMasks maskKeys (1 :: maskSealed.drop 1) = .error .refused := by
  have hopen : decrypt Engine.nestedMasks maskKeys maskSealed = .ok [104, 105] := by decide +kernel
  exact ⟨hopen, ((head_authenticated (Engine.lawful_of_built Engine.built_nestedMasks)
    (by decide)).1 maskKeys rfl rfl).1 _ _ _ hopen rfl rfl (by decide)⟩

end Envelope

end SealedText
