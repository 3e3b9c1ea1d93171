import SealedText.Envelope
import SealedText.Proofs.CascadeComposition
import SealedText.Proofs.Tags

/-!
# Envelopes open to what was sealed in them

`Encloses` says what an envelope of a payload is: a vector, then the chained encryption of the tag
and the payload. With a lawful cipher whose blocks have 8 to 255 bytes, opening accepts exactly
these, in the plain form and in the salted one (`decrypt_exact`). The lower bound leaves room for a
tag; the upper one lets the length of every padding fit its byte.
-/

namespace SealedText.Envelope

/-- `sealed` is the envelope of `payload` with the vector `iv`. -/
def Encloses (fresh : Engine) (text auth : SecretKey) (iv payload sealed : Bytes) : Prop :=
  ∃ engine tag chained, fresh.keyedWith .encrypting text.bytes = .ok engine ∧
    macOf fresh auth.bytes payload = .ok tag ∧
    engine.chainEncrypt iv (tag ++ payload) = .ok chained ∧ sealed = iv ++ chained

theorem Encloses.unique {fresh : Engine} {text auth : SecretKey} {iv payload sealed sealed₁ : Bytes}
    (h : Encloses fresh text auth iv payload sealed)
    (h₁ : Encloses fresh text auth iv payload sealed₁) :
    sealed = sealed₁ := by
  obtain ⟨engine, tag, chained, hkey, htag, hchain, rfl⟩ := h
  obtain ⟨engine₁, tag₁, chained₁, hkey₁, htag₁, hchain₁, rfl⟩ := h₁
  rw [hkey] at hkey₁
  cases hkey₁
  rw [htag] at htag₁
  cases htag₁
  rw [hchain] at hchain₁
  cases hchain₁
  rfl

section Inside

variable {fresh : Engine} {key : SecretKey}

theorem checkLength_of_eq (hk : key.bytes.length = fresh.keySize) :
    checkLength fresh key = .ok () := by
  rw [checkLength, if_neg (not_not_intro hk)]

theorem enclose_ok_iff {iv inner sealed : Bytes} :
    enclose fresh key iv inner = .ok sealed ↔
      ∃ engine chained, fresh.keyedWith .encrypting key.bytes = .ok engine ∧
        engine.chainEncrypt iv inner = .ok chained ∧ sealed = iv ++ chained := by
  rw [enclose, bind_eq_ok]
  constructor
  · rintro ⟨engine, hkey, hrest⟩
    obtain ⟨chained, hchain, h⟩ := bind_eq_ok.1 hrest
    cases h
    exact ⟨engine, chained, hkey, hchain, rfl⟩
  · rintro ⟨engine, chained, hkey, hchain, rfl⟩
    exact ⟨engine, hkey, bind_eq_ok.2 ⟨chained, hchain, rfl⟩⟩

theorem encloses_iff {auth : SecretKey} {iv payload sealed : Bytes} :
    Encloses fresh key auth iv payload sealed ↔
      ∃ tag, macOf fresh auth.bytes payload = .ok tag ∧
        enclose fresh key iv (tag ++ payload) = .ok sealed := by
  constructor
  · rintro ⟨engine, tag, chained, hkey, htag, hchain, rfl⟩
    exact ⟨tag, htag, enclose_ok_iff.2 ⟨engine, chained, hkey, hchain, rfl⟩⟩
  · rintro ⟨tag, htag, henc⟩
    obtain ⟨engine, chained, hkey, hchain, rfl⟩ := enclose_ok_iff.1 henc
    exact ⟨engine, tag, chained, hkey, htag, hchain, rfl⟩

theorem disclose?_eq_some_iff {inner sealed : Bytes} :
    disclose? fresh key sealed = some inner ↔
      fresh.blockSize < sealed.length ∧
        ∃ engine, fresh.keyedWith .decrypting key.bytes = .ok engine ∧
          engine.chainDecrypt (sealed.take fresh.blockSize) (sealed.drop fresh.blockSize) =
            .ok inner := by
  rw [disclose?]
  by_cases hlen : sealed.length ≤ fresh.blockSize
  · rw [if_pos hlen]
    constructor
    · intro h
      cases h
    · rintro ⟨hlt, -⟩
      omega
  · rw [if_neg hlen]
    cases hkey : fresh.keyedWith .decrypting key.bytes with
    | error err => simp
    | ok engine =>
      simp only [Except.ok.injEq, exists_eq_left']
      cases hchain : engine.chainDecrypt (sealed.take fresh.blockSize)
          (sealed.drop fresh.blockSize) with
      | error err => simp [Except.toOption]
      | ok inner₁ =>
        simp only [Except.toOption, Option.some.injEq, Except.ok.injEq]
        exact ⟨fun h => ⟨by omega, h⟩, fun h => h.2⟩

/-- What is disclosed under a key is what was enclosed under it. -/
theorem disclose?_iff (h : fresh.Lawful) (hpos : 0 < fresh.blockSize)
    (hhigh : fresh.blockSize ≤ 255) (hk : key.bytes.length = fresh.keySize) {inner sealed : Bytes} :
    disclose? fresh key sealed = some inner ↔
      ∃ iv, iv.length = fresh.blockSize ∧ enclose fresh key iv inner = .ok sealed := by
  obtain ⟨enc, dec, henc, hdec, hencSize, hdecSize, hinv⟩ := h.exists_keyed hk
  have hchain := Engine.chainDecrypt_iff hinv hencSize hdecSize hpos
  rw [disclose?_eq_some_iff]
  constructor
  · rintro ⟨hlen, dec₁, hdec₁, hopen⟩
    rw [hdec] at hdec₁
    cases hdec₁
    refine ⟨sealed.take fresh.blockSize, ?_, enclose_ok_iff.2
      ⟨enc, sealed.drop fresh.blockSize, henc, ((hchain ..).1 hopen).1, ?_⟩⟩
    · rw [List.length_take]
      omega
    · rw [List.take_append_drop]
  · rintro ⟨iv, hiv, hclose⟩
    obtain ⟨enc₁, chained, henc₁, hseal, rfl⟩ := enclose_ok_iff.1 hclose
    rw [henc] at henc₁
    cases henc₁
    have hfits : padLength fresh.blockSize inner.length ≤ 255 :=
      (padLength_le _ _).trans hhigh
    obtain ⟨chained₁, hseal₁, hlen⟩ :=
      Engine.exists_chainEncrypt hinv hencSize hpos hiv inner
    rw [hseal] at hseal₁
    cases hseal₁
    refine ⟨?_, dec, hdec, ?_⟩
    · have hpad := padLength_pos hpos inner.length
      rw [List.length_append]
      omega
    · rw [← hiv, List.take_left, List.drop_left]
      exact (hchain ..).2 ⟨hseal, hfits⟩

theorem tagsEqual_iff {expected actual : Bytes} :
    tagsEqual expected actual = true ↔ expected = actual :=
  beq_iff_eq

theorem authentic?_eq_some_iff {inner payload : Bytes} :
    authentic? fresh key inner = some payload ↔
      inner.drop tagSize = payload ∧ macOf fresh key.bytes payload = .ok (inner.take tagSize) := by
  rw [authentic?]
  cases htag : macOf fresh key.bytes (inner.drop tagSize) with
  | error err =>
    constructor
    · intro h
      cases h
    · rintro ⟨rfl, h⟩
      rw [htag] at h
      cases h
  | ok tag =>
    constructor
    · intro h
      by_cases heq : tagsEqual tag (inner.take tagSize) = true
      · simp only [if_pos heq, Option.some.injEq] at h
        subst h
        exact ⟨rfl, by rw [htag, tagsEqual_iff.1 heq]⟩
      · simp only [if_neg heq] at h
        cases h
    · rintro ⟨rfl, h⟩
      rw [htag] at h
      cases h
      simp only [if_pos (tagsEqual_iff.2 rfl)]

/-- Something with a tag in front is authentic, as what follows the tag, exactly if it is the tag of
it. -/
theorem authentic?_iff (h : fresh.Lawful) (hlow : tagSize ≤ fresh.blockSize)
    (hk : key.bytes.length = fresh.keySize) {inner payload : Bytes}
    (hlen : tagSize ≤ inner.length) :
    authentic? fresh key inner = some payload ↔
      ∃ tag, macOf fresh key.bytes payload = .ok tag ∧ inner = tag ++ payload := by
  rw [authentic?_eq_some_iff]
  constructor
  · rintro ⟨rfl, htag⟩
    exact ⟨_, htag, (List.take_append_drop tagSize inner).symm⟩
  · rintro ⟨tag, htag, rfl⟩
    have htagSize := length_of_macOf h hlow hk htag
    rw [← htagSize, List.drop_left, List.take_left]
    exact ⟨rfl, htag⟩

end Inside

/-- What opening an envelope comes to, once the keys are known to fit: what is inside, if it is at
least `shortest` bytes and authentic. -/
def opened? (fresh : Engine) (text auth : SecretKey) (shortest : Nat) (sealed : Bytes) :
    Option Bytes :=
  (disclose? fresh text sealed).bind fun inner =>
    if inner.length < shortest then none else authentic? fresh auth inner

section Open

variable {fresh : Engine} {sealed : Bytes}

theorem decrypt_eq {keys : Keyset} (ht : keys.text.bytes.length = fresh.keySize)
    (ha : keys.auth.bytes.length = fresh.keySize) :
    decrypt fresh keys sealed =
      (opened? fresh keys.text keys.auth tagSize sealed).elim (.error .refused) .ok := by
  rw [decrypt, opened?, checkLength_of_eq ht, checkLength_of_eq ha]
  cases disclose? fresh keys.text sealed with
  | none => rfl
  | some inner =>
    by_cases hlen : inner.length < tagSize
    · simp only [Option.bind_some, if_pos hlen]
      rfl
    · simp only [Option.bind_some, if_neg hlen]
      cases authentic? fresh keys.auth inner <;> rfl

theorem Salted.decrypt_eq {key : SecretKey} (hk : key.bytes.length = fresh.keySize) :
    Salted.decrypt fresh key sealed =
      (opened? fresh key key (tagSize + saltLength) sealed).elim (.error .refused)
        fun salted => .ok (salted.drop saltLength) := by
  rw [Salted.decrypt, opened?, checkLength_of_eq hk]
  cases disclose? fresh key sealed with
  | none => rfl
  | some inner =>
    by_cases hlen : inner.length < tagSize + saltLength
    · simp only [Option.bind_some, if_pos hlen]
      rfl
    · simp only [Option.bind_some, if_neg hlen]
      cases authentic? fresh key inner <;> rfl

theorem opened?_iff (h : fresh.Lawful) (hlow : tagSize ≤ fresh.blockSize)
    (hhigh : fresh.blockSize ≤ 255) {text auth : SecretKey} (ht : text.bytes.length = fresh.keySize)
    (ha : auth.bytes.length = fresh.keySize) {shortest : Nat} (hshort : tagSize ≤ shortest)
    {payload : Bytes} :
    opened? fresh text auth shortest sealed = some payload ↔
      shortest ≤ tagSize + payload.length ∧
        ∃ iv, iv.length = fresh.blockSize ∧ Encloses fresh text auth iv payload sealed := by
  have hpos : 0 < fresh.blockSize := Nat.lt_of_lt_of_le (by decide) hlow
  rw [opened?, Option.bind_eq_some_iff]
  constructor
  · rintro ⟨inner, hinner, hauth⟩
    split_ifs at hauth with hlen
    obtain ⟨tag, htag, rfl⟩ := (authentic?_iff h hlow ha (by omega)).1 hauth
    obtain ⟨iv, hiv, hclose⟩ := (disclose?_iff h hpos hhigh ht).1 hinner
    have htagSize := length_of_macOf h hlow ha htag
    rw [List.length_append] at hlen
    exact ⟨by omega, iv, hiv, encloses_iff.2 ⟨tag, htag, hclose⟩⟩
  · rintro ⟨hlen, iv, hiv, henc⟩
    obtain ⟨tag, htag, hclose⟩ := encloses_iff.1 henc
    have htagSize := length_of_macOf h hlow ha htag
    refine ⟨tag ++ payload, (disclose?_iff h hpos hhigh ht).2 ⟨iv, hiv, hclose⟩, ?_⟩
    rw [if_neg (by rw [List.length_append]; omega)]
    exact (authentic?_iff h hlow ha (by rw [List.length_append]; omega)).2 ⟨tag, htag, rfl⟩

theorem exists_encloses (h : fresh.Lawful) (hlow : tagSize ≤ fresh.blockSize)
    {text auth : SecretKey} (ht : text.bytes.length = fresh.keySize)
    (ha : auth.bytes.length = fresh.keySize) {iv : Bytes} (hiv : iv.length = fresh.blockSize) (payload : Bytes) :
    ∃ sealed, Encloses fresh text auth iv payload sealed := by
  have hpos : 0 < fresh.blockSize := Nat.lt_of_lt_of_le (by decide) hlow
  obtain ⟨enc, dec, henc, -, hencSize, -, hinv⟩ := h.exists_keyed ht
  obtain ⟨tag, htag, -⟩ := exists_macOf h hlow ha payload
  obtain ⟨chained, hchain, -⟩ :=
    Engine.exists_chainEncrypt hinv hencSize hpos hiv (tag ++ payload)
  exact ⟨_, enc, tag, chained, henc, htag, hchain, rfl⟩

theorem encrypt_ok_iff {keys : Keyset} (ht : keys.text.bytes.length = fresh.keySize)
    (ha : keys.auth.bytes.length = fresh.keySize) {iv payload : Bytes} :
    encrypt fresh keys iv payload = .ok sealed ↔
      Encloses fresh keys.text keys.auth iv payload sealed := by
  rw [encrypt, checkLength_of_eq ht, checkLength_of_eq ha, encloses_iff]
  exact bind_eq_ok (x := macOf fresh keys.auth.bytes payload)

theorem Salted.encrypt_ok_iff {key : SecretKey} (hk : key.bytes.length = fresh.keySize)
    {iv salt payload : Bytes} :
    Salted.encrypt fresh key iv salt payload = .ok sealed ↔
      Encloses fresh key key iv (salt ++ payload) sealed := by
  rw [Salted.encrypt, checkLength_of_eq hk, encloses_iff]
  exact bind_eq_ok (x := macOf fresh key.bytes (salt ++ payload))

theorem decrypt_ok_iff (h : fresh.Lawful) (hlow : tagSize ≤ fresh.blockSize)
    (hhigh : fresh.blockSize ≤ 255) {keys : Keyset} (ht : keys.text.bytes.length = fresh.keySize)
    (ha : keys.auth.bytes.length = fresh.keySize) {payload : Bytes} :
    decrypt fresh keys sealed = .ok payload ↔
      ∃ iv, iv.length = fresh.blockSize ∧ Encloses fresh keys.text keys.auth iv payload sealed := by
  have hopen : opened? fresh keys.text keys.auth tagSize sealed = some payload ↔ _ :=
    opened?_iff h hlow hhigh ht ha Nat.le.refl
  have hlen : tagSize ≤ tagSize + payload.length := Nat.le_add_right ..
  refine Iff.trans ?_ (hopen.trans (and_iff_right hlen))
  rw [decrypt_eq ht ha]
  cases opened? fresh keys.text keys.auth tagSize sealed <;> simp

theorem Salted.decrypt_ok_iff (h : fresh.Lawful) (hlow : tagSize ≤ fresh.blockSize)
    (hhigh : fresh.blockSize ≤ 255) {key : SecretKey} (hk : key.bytes.length = fresh.keySize)
    {payload : Bytes} :
    Salted.decrypt fresh key sealed = .ok payload ↔
      ∃ iv salt, iv.length = fresh.blockSize ∧ salt.length = saltLength ∧
        Encloses fresh key key iv (salt ++ payload) sealed := by
  have hshort : tagSize ≤ tagSize + saltLength := Nat.le_add_right ..
  rw [Salted.decrypt_eq hk]
  constructor
  · intro hd
    cases hopen : opened? fresh key key (tagSize + saltLength) sealed with
    | none =>
      rw [hopen] at hd
      cases hd
    | some salted =>
      rw [hopen] at hd
      cases hd
      obtain ⟨hlen, iv, hiv, henc⟩ := (opened?_iff h hlow hhigh hk hk hshort).1 hopen
      refine ⟨iv, salted.take saltLength, hiv, ?_, ?_⟩
      · rw [List.length_take]
        omega
      · rwa [List.take_append_drop]
  · rintro ⟨iv, salt, hiv, hsalt, henc⟩
    have hlen : tagSize + saltLength ≤ tagSize + (salt ++ payload).length := by
      rw [List.length_append]
      omega
    rw [(opened?_iff h hlow hhigh hk hk hshort).2 ⟨hlen, iv, hiv, henc⟩, Option.elim_some, ← hsalt,
      List.drop_left]

theorem take_of_encloses {text auth : SecretKey} {iv payload : Bytes}
    (h : Encloses fresh text auth iv payload sealed) (hiv : iv.length = fresh.blockSize) :
    sealed.take fresh.blockSize = iv := by
  obtain ⟨_, _, _, _, _, _, rfl⟩ := h
  rw [← hiv, List.take_left]

theorem length_of_encloses (h : fresh.Lawful) (hlow : tagSize ≤ fresh.blockSize)
    {text auth : SecretKey} (ht : text.bytes.length = fresh.keySize)
    (ha : auth.bytes.length = fresh.keySize) {iv payload : Bytes} (hiv : iv.length = fresh.blockSize)
    (henc : Encloses fresh text auth iv payload sealed) :
    sealed.length = fresh.blockSize + (tagSize + payload.length +
      padLength fresh.blockSize (tagSize + payload.length)) := by
  have hpos : 0 < fresh.blockSize := Nat.lt_of_lt_of_le (by decide) hlow
  obtain ⟨enc, dec, hkey, -, hencSize, -, hinv⟩ := h.exists_keyed ht
  obtain ⟨enc₁, tag, chained, hkey₁, htag, hchain, rfl⟩ := henc
  rw [hkey] at hkey₁
  cases hkey₁
  have htagSize := length_of_macOf h hlow ha htag
  obtain ⟨chained₁, hchain₁, hlen⟩ :=
    Engine.exists_chainEncrypt hinv hencSize hpos hiv (tag ++ payload)
  rw [hchain] at hchain₁
  cases hchain₁
  rw [List.length_append, hlen, List.length_append, hiv, htagSize]

/-- The salt is what follows the tag inside. -/
theorem salt_of_encloses (h : fresh.Lawful) (hlow : tagSize ≤ fresh.blockSize)
    (hhigh : fresh.blockSize ≤ 255) {key : SecretKey} (hk : key.bytes.length = fresh.keySize)
    {iv salt payload : Bytes} (hiv : iv.length = fresh.blockSize) (hsalt : salt.length = saltLength)
    (henc : Encloses fresh key key iv (salt ++ payload) sealed) :
    (disclose? fresh key sealed).map (fun inner => (inner.drop tagSize).take saltLength) =
      some salt := by
  have hpos : 0 < fresh.blockSize := Nat.lt_of_lt_of_le (by decide) hlow
  obtain ⟨tag, htag, hclose⟩ := encloses_iff.1 henc
  have htagSize := length_of_macOf h hlow hk htag
  rw [(disclose?_iff h hpos hhigh hk).2 ⟨iv, hiv, hclose⟩, Option.map_some, ← htagSize,
    List.drop_left, ← hsalt, List.take_left]

end Open

/-- Opening accepts exactly what sealing makes. Whatever vector and salt are drawn, the envelope
opens to the payload, and among the envelopes with that vector and salt it is the only one that
does. The standard cipher is one of those this holds of. -/
theorem decrypt_exact :
    (Engine.standard.Lawful ∧ Engine.standard.blockSize = 16 ∧ Engine.standard.keySize = 96) ∧
      ∀ fresh : Engine, fresh.Lawful → 8 ≤ fresh.blockSize → fresh.blockSize ≤ 255 →
        (∀ keys : Keyset, keys.text.bytes.length = fresh.keySize →
          keys.auth.bytes.length = fresh.keySize →
          (∀ sealed payload, decrypt fresh keys sealed = .ok payload ↔
            ∃ iv, iv.length = fresh.blockSize ∧
              Encloses fresh keys.text keys.auth iv payload sealed) ∧
          ∀ iv payload : Bytes, iv.length = fresh.blockSize →
            ∃ sealed, encrypt fresh keys iv payload = .ok sealed ∧
              decrypt fresh keys sealed = .ok payload ∧
              ∀ other, decrypt fresh keys other = .ok payload →
                other.take fresh.blockSize = iv → other = sealed) ∧
        ∀ key : SecretKey, key.bytes.length = fresh.keySize →
          (∀ sealed payload, Salted.decrypt fresh key sealed = .ok payload ↔
            ∃ iv salt, iv.length = fresh.blockSize ∧ salt.length = saltLength ∧
              Encloses fresh key key iv (salt ++ payload) sealed) ∧
          ∀ iv salt payload : Bytes, iv.length = fresh.blockSize → salt.length = saltLength →
            ∃ sealed, Salted.encrypt fresh key iv salt payload = .ok sealed ∧
              Salted.decrypt fresh key sealed = .ok payload ∧
              ∀ other, Salted.decrypt fresh key other = .ok payload →
                other.take fresh.blockSize = iv →
                (disclose? fresh key other).map
                  (fun inner => (inner.drop tagSize).take saltLength) = some salt →
                other = sealed := by
  refine ⟨⟨Engine.lawful_standard, rfl, rfl⟩, fun fresh h hlow hhigh => ⟨fun keys ht ha => ?_, ?_⟩⟩
  · refine ⟨fun sealed payload => decrypt_ok_iff h hlow hhigh ht ha, fun iv payload hiv => ?_⟩
    obtain ⟨sealed, hsealed⟩ := exists_encloses h hlow ht ha hiv payload
    refine ⟨sealed, (encrypt_ok_iff ht ha).2 hsealed,
      (decrypt_ok_iff h hlow hhigh ht ha).2 ⟨iv, hiv, hsealed⟩, fun other hother htake => ?_⟩
    obtain ⟨iv₁, hiv₁, hother₁⟩ := (decrypt_ok_iff h hlow hhigh ht ha).1 hother
    rw [take_of_encloses hother₁ hiv₁] at htake
    subst htake
    exact hother₁.unique hsealed
  · intro key hk
    refine ⟨fun sealed payload => Salted.decrypt_ok_iff h hlow hhigh hk,
      fun iv salt payload hiv hsalt => ?_⟩
    obtain ⟨sealed, hsealed⟩ := exists_encloses h hlow hk hk hiv (salt ++ payload)
    refine ⟨sealed, (Salted.encrypt_ok_iff hk).2 hsealed,
      (Salted.decrypt_ok_iff h hlow hhigh hk).2 ⟨iv, salt, hiv, hsalt, hsealed⟩,
      fun other hother htake hsame => ?_⟩
    obtain ⟨iv₁, salt₁, hiv₁, hsalt₁, hother₁⟩ := (Salted.decrypt_ok_iff h hlow hhigh hk).1 hother
    rw [take_of_encloses hother₁ hiv₁] at htake
    rw [salt_of_encloses h hlow hhigh hk hiv₁ hsalt₁ hother₁] at hsame
    cases hsame
    subst htake
    exact hother₁.unique hsealed

/-- Keys for the nested masks. -/
def maskKeys : Keyset where
  text := ⟨[1, 2, 3, 4, 5, 6, 7, 8, 9, 10, 11, 12]⟩
  auth := ⟨[12, 11, 10, 9, 8, 7, 6, 5, 4, 3, 2, 1]⟩

/-- An envelope of two bytes under them. -/
def maskSealed : Bytes :=
  [0, 1, 2, 3, 4, 5, 6, 7, 107, 103, 9, 6, 45, 22, 19, 14, 14, 24, 14, 3, 49, 32, 27, 23]

theorem nestedMasks_decrypt_exact :
    decrypt Engine.nestedMasks maskKeys maskSealed = .ok [104, 105] ∧
      ∀ other, decrypt Engine.nestedMasks maskKeys other = .ok [104, 105] →
        other.take 8 = [0, 1, 2, 3, 4, 5, 6, 7] → other = maskSealed := by
  obtain ⟨-, hplain⟩ := (decrypt_exact.2 Engine.nestedMasks
    (Engine.lawful_of_built Engine.built_nestedMasks) (by decide) (by decide)).1 maskKeys rfl rfl
  obtain ⟨sealed, hseal, hopen, honly⟩ := hplain [0, 1, 2, 3, 4, 5, 6, 7] [104, 105] rfl
  have hbytes : encrypt Engine.nestedMasks maskKeys [0, 1, 2, 3, 4, 5, 6, 7] [104, 105] =
      .ok maskSealed := by decide +kernel
  rw [hseal] at hbytes
  cases hbytes
  exact ⟨hopen, honly⟩

end SealedText.Envelope
