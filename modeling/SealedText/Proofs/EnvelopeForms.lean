import SealedText.Proofs.OpeningAnswer

/-!
# What tells the two forms of an envelope apart

Nothing but the keys does. Opening the salted form with a key is opening the plain form with that
key in both places and dropping a salt from what comes out, whatever the envelope holds and whether
or not the key fits (`Salted.decrypt_eq_match`). So where both keys of a keyset are the same, the
envelopes of either form open in the other (`salted_of_plain`).
-/

namespace SealedText.Envelope

variable {fresh : Engine}

/-- What is required beyond the tag is required of what comes out. -/
theorem opened?_add (text auth : SecretKey) (more : Nat) (sealed : Bytes) :
    opened? fresh text auth (tagSize + more) sealed =
      (opened? fresh text auth tagSize sealed).filter (more ≤ ·.length) := by
  rw [opened?, opened?]
  cases disclose? fresh text sealed with
  | none => rfl
  | some inner =>
    simp only [Option.bind_some]
    by_cases hshort : inner.length < tagSize
    · rw [if_pos hshort, if_pos (by omega), Option.filter_none]
    rw [if_neg hshort]
    cases hauth : authentic? fresh auth inner with
    | none => rw [ite_self, Option.filter_none]
    | some payload =>
      have hlen : payload.length = inner.length - tagSize := by
        rw [← (authentic?_eq_some_iff.1 hauth).1, List.length_drop]
      by_cases hmore : more ≤ payload.length
      · rw [if_neg (by omega), Option.filter_some_pos (by simpa using hmore)]
      · rw [if_pos (by omega), Option.filter_some_neg (by simpa using hmore)]

theorem Salted.decrypt_eq_match (fresh : Engine) (key : SecretKey) (sealed : Bytes) :
    decrypt fresh key sealed =
      match Envelope.decrypt fresh ⟨key, key⟩ sealed with
      | .ok payload =>
        if saltLength ≤ payload.length then .ok (payload.drop saltLength) else .error .refused
      | .error err => .error err := by
  by_cases hk : key.bytes.length = fresh.keySize
  · rw [Salted.decrypt_eq hk, Envelope.decrypt_eq hk hk, opened?_add]
    cases opened? fresh key key tagSize sealed with
    | none => rfl
    | some payload =>
      simp only [Option.elim_some]
      split_ifs with hlong
      · rw [Option.filter_some_pos (by simpa using hlong), Option.elim_some]
      · rw [Option.filter_some_neg (by simpa using hlong), Option.elim_none]
  · rw [decrypt, Envelope.decrypt, checkLength_of_ne hk]
    rfl

/-- Opening in the salted form is opening in the plain form, with the key in both places, and
dropping the first eight bytes of the payload, which has to have as many. So every salted envelope
opens in the plain form, as its salt and payload, and every plain envelope of at least eight bytes
under a key in both places opens in the salted form, without the first eight. -/
theorem salted_of_plain :
    (∀ (fresh : Engine) (key : SecretKey) (sealed : Bytes),
      Salted.decrypt fresh key sealed =
        match decrypt fresh ⟨key, key⟩ sealed with
        | .ok payload => if 8 ≤ payload.length then .ok (payload.drop 8) else .error .refused
        | .error err => .error err) ∧
    ∀ fresh : Engine, fresh.Lawful → 8 ≤ fresh.blockSize → fresh.blockSize ≤ 255 →
      ∀ (key : SecretKey), key.bytes.length = fresh.keySize →
        ∀ iv payload : Bytes, iv.length = fresh.blockSize →
          (∀ salt : Bytes, salt.length = 8 →
            ∃ sealed, Salted.encrypt fresh key iv salt payload = .ok sealed ∧
              Salted.decrypt fresh key sealed = .ok payload ∧
              decrypt fresh ⟨key, key⟩ sealed = .ok (salt ++ payload)) ∧
          (8 ≤ payload.length →
            ∃ sealed, encrypt fresh ⟨key, key⟩ iv payload = .ok sealed ∧
              decrypt fresh ⟨key, key⟩ sealed = .ok payload ∧
              Salted.decrypt fresh key sealed = .ok (payload.drop 8)) := by
  refine ⟨Salted.decrypt_eq_match, fun fresh h hlow hhigh key hk iv payload hiv => ?_⟩
  have hplain : ∀ payload : Bytes, ∃ sealed, Encloses fresh key key iv payload sealed ∧
      decrypt fresh ⟨key, key⟩ sealed = .ok payload := by
    intro payload
    obtain ⟨sealed, hsealed⟩ := exists_encloses h hlow hk hk hiv payload
    exact ⟨sealed, hsealed, (decrypt_ok_iff h hlow hhigh hk hk).2 ⟨iv, hiv, hsealed⟩⟩
  refine ⟨fun salt hsalt => ?_, fun hlong => ?_⟩
  · obtain ⟨sealed, hsealed, hopen⟩ := hplain (salt ++ payload)
    refine ⟨sealed, (Salted.encrypt_ok_iff hk).2 hsealed, ?_, hopen⟩
    simp [Salted.decrypt_eq_match, hopen, saltLength, ← hsalt]
  · obtain ⟨sealed, hsealed, hopen⟩ := hplain payload
    refine ⟨sealed, (encrypt_ok_iff hk hk).2 hsealed, hopen, ?_⟩
    rw [Salted.decrypt_eq_match, hopen]
    exact if_pos hlong

/-- A salted envelope of two bytes opens in the plain form, and a plain one of nine bytes loses all
but its last in the salted form. -/
theorem maskKey_crosses :
    let key : SecretKey := maskKeys.text
    let iv : Bytes := [0, 1, 2, 3, 4, 5, 6, 7]
    (∃ sealed, Salted.encrypt Engine.nestedMasks key iv [9, 9, 9, 9, 9, 9, 9, 9] [104, 105] =
        .ok sealed ∧
      decrypt Engine.nestedMasks ⟨key, key⟩ sealed =
        .ok [9, 9, 9, 9, 9, 9, 9, 9, 104, 105]) ∧
    ∃ sealed, encrypt Engine.nestedMasks ⟨key, key⟩ iv [1, 2, 3, 4, 5, 6, 7, 8, 9] = .ok sealed ∧
      Salted.decrypt Engine.nestedMasks key sealed = .ok [9] := by
  intro key iv
  have hcross := salted_of_plain.2 Engine.nestedMasks
    (Engine.lawful_of_built Engine.built_nestedMasks) (by decide) (by decide) key rfl iv
  obtain ⟨salted, hsalted, -, hplain⟩ := (hcross [104, 105] rfl).1 [9, 9, 9, 9, 9, 9, 9, 9] rfl
  obtain ⟨plain, hseal, -, hopen⟩ := (hcross [1, 2, 3, 4, 5, 6, 7, 8, 9] rfl).2 (by decide)
  exact ⟨⟨salted, hsalted, hplain⟩, plain, hseal, hopen⟩

end SealedText.Envelope
