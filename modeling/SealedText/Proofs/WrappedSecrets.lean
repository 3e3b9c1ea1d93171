import SealedText.KeyStore.Passphrase
import SealedText.Proofs.Delivery
import SealedText.Proofs.TextBytes

/-!
# Wrapped secrets

A secret that is wrapped for a key is unwrapped for it again, whatever vector and salt are drawn
(`exists_wrap`): the envelope gives back the binding with the secret behind it.

What is in front of the secret ends with the first zero byte only if the id has none. So the
material of one id reads as that of another exactly if the two are `Confused`: one of them goes on
from the other with a zero character, which the end of the binding is then taken for
(`wrapped_bound`). Ids without zero characters never are.
-/

namespace SealedText.PassphraseKey

theorem length_ofPassphrase (passphrase : String) (iterations : Nat) :
    (ofPassphrase passphrase iterations).key.bytes.length = 96 :=
  Stretch.length_key _ passphrase

theorem stripStart?_append (start rest : Bytes) :
    stripStart? start (start ++ rest) = some rest := by
  have hprefix : start.isPrefixOf (start ++ rest) = true := by
    rw [List.isPrefixOf_iff_prefix]
    exact List.prefix_append start rest
  rw [stripStart?, if_pos hprefix, List.drop_left]

section Unwrap

variable {k : PassphraseKey} {id : String} {wrapped framed : Bytes}

theorem unwrap_of_binding {secret : Bytes}
    (h : Envelope.Salted.decrypt .standard k.key wrapped = .ok (binding id ++ secret)) :
    k.unwrap id wrapped = .ok secret := by
  rw [unwrap, h]
  simp only [stripStart?_append]

theorem unwrap_of_not_binding (h : Envelope.Salted.decrypt .standard k.key wrapped = .ok framed)
    (hno : ¬ binding id <+: framed) : k.unwrap id wrapped = .error (.otherKey id) := by
  rw [← List.isPrefixOf_iff_prefix] at hno
  rw [unwrap, h]
  simp only [stripStart?, if_neg hno]

theorem exists_framed {iv salt : Bytes} (hk : k.key.bytes.length = 96) (hiv : iv.length = 16)
    (hsalt : salt.length = 8) (id : String) (secret : Bytes) :
    ∃ wrapped, k.wrap id iv salt secret = .ok wrapped ∧
      Envelope.Salted.decrypt .standard k.key wrapped = .ok (binding id ++ secret) := by
  obtain ⟨wrapped, hseal, hopen⟩ := exists_saltedEnvelope hk hiv hsalt (binding id ++ secret)
  exact ⟨wrapped, mapError_eq_ok.2 hseal, hopen⟩

theorem exists_wrap {iv salt : Bytes} (hk : k.key.bytes.length = 96)
    (hiv : iv.length = 16) (hsalt : salt.length = 8) (id : String) (secret : Bytes) :
    ∃ wrapped, k.wrap id iv salt secret = .ok wrapped ∧ k.unwrap id wrapped = .ok secret := by
  obtain ⟨wrapped, hwrap, hopen⟩ := exists_framed hk hiv hsalt id secret
  exact ⟨wrapped, hwrap, unwrap_of_binding hopen⟩

end Unwrap

/-! ## Ids that are taken for each other -/

/-- The secret of `id` can be read as one of `other`: a zero character inside one of the two ids is
taken for the end of the binding. In the second case the secret has to look like the rest of
`other`. -/
def Confused (id other : String) (secret : Bytes) : Prop :=
  (∃ rest, id = other ++ "\x00" ++ rest) ∨
    ∃ rest, other = id ++ "\x00" ++ rest ∧ binding rest <+: secret

variable {id other : String} {secret : Bytes}

theorem binding_append (x y : String) : binding (x ++ "\x00" ++ y) = binding x ++ binding y := by
  have hzero : "\x00".toUTF8.data.toList = [0] := by decide
  simp only [binding, data_toUTF8_append, hzero, List.append_assoc]

/-- If a text goes on from another and the next byte is zero, it is a zero character. -/
theorem exists_after_zero {x y : String} (hne : x ≠ y) {more front rest : Bytes}
    (hx : x.toUTF8.data.toList = y.toUTF8.data.toList ++ more)
    (hmore : [0] ++ front = more ++ rest) :
    ∃ z, x = y ++ "\x00" ++ z ∧ front = z.toUTF8.data.toList ++ rest := by
  have hzero : "\x00".toUTF8.data.toList = [0] := by decide
  cases more with
  | nil =>
    rw [List.append_nil] at hx
    exact absurd (eq_of_toUTF8 hx) hne
  | cons b more =>
    rw [List.singleton_append, List.cons_append, List.cons.injEq] at hmore
    obtain ⟨rfl, hfront⟩ := hmore
    have hbytes : x.toUTF8.data.toList = (y ++ "\x00").toUTF8.data.toList ++ more := by
      rw [hx, data_toUTF8_append, hzero, List.append_assoc, List.singleton_append]
    obtain ⟨z, hz, hmore⟩ := exists_append_of_toUTF8 hbytes
    exact ⟨z, hz, by rw [hfront, hmore]⟩

/-- The frame of a secret starts with the binding of another id only if the two are confused. -/
theorem binding_prefix_iff (hne : other ≠ id) :
    binding other <+: binding id ++ secret ↔ Confused id other secret := by
  constructor
  · rintro ⟨found, hfound⟩
    rw [binding, binding, List.append_assoc, List.append_assoc, List.append_eq_append_iff] at hfound
    rcases hfound with ⟨more, hid, hmore⟩ | ⟨more, hother, hmore⟩
    · obtain ⟨z, hz, -⟩ := exists_after_zero hne.symm hid hmore
      exact .inl ⟨z, hz⟩
    · obtain ⟨z, hz, hsecret⟩ := exists_after_zero hne hother hmore
      refine .inr ⟨z, hz, found, ?_⟩
      rw [hsecret, binding, List.append_assoc]
  · rintro (⟨rest, rfl⟩ | ⟨rest, rfl, hsecret⟩)
    · rw [binding_append, List.append_assoc]
      exact List.prefix_append _ _
    · rw [binding_append]
      exact (List.prefix_append_right_inj _).2 hsecret

theorem not_confused (hid : '\x00' ∉ id.toList) (hother : '\x00' ∉ other.toList) :
    ¬ Confused id other secret := by
  have hmem (x y : String) : '\x00' ∈ (x ++ "\x00" ++ y).toList := by
    simp only [String.toList_append]
    exact List.mem_append_left _ (List.mem_append_right _ List.mem_cons_self)
  rintro (⟨rest, rfl⟩ | ⟨rest, rfl, -⟩)
  · exact hid (hmem other rest)
  · exact hother (hmem id rest)

/-- Wrapped material opens for its own id, with the secret that was put in. For another id it is
refused as that of another key, unless the two ids are confused; then it opens. -/
theorem wrapped_bound (passphrase : String) (iterations : Nat) (iv salt : Bytes)
    (hiv : iv.length = 16) (hsalt : salt.length = 8) (id : String) (secret : Bytes) :
    let k := ofPassphrase passphrase iterations
    ∃ wrapped, k.wrap id iv salt secret = .ok wrapped ∧ k.unwrap id wrapped = .ok secret ∧
      ∀ other, other ≠ id →
        ((∃ err, k.unwrap other wrapped = .error err) ↔ ¬ Confused id other secret) ∧
        (¬ Confused id other secret → k.unwrap other wrapped = .error (.otherKey other)) ∧
        ('\x00' ∉ id.toList → '\x00' ∉ other.toList → ¬ Confused id other secret) := by
  intro k
  obtain ⟨wrapped, hwrap, hopen⟩ :=
    exists_framed (length_ofPassphrase passphrase iterations) hiv hsalt id secret
  refine ⟨wrapped, hwrap, unwrap_of_binding hopen, fun other hne => ?_⟩
  have hrefused : ¬ Confused id other secret → k.unwrap other wrapped = .error (.otherKey other) :=
    fun hno => unwrap_of_not_binding hopen (mt (binding_prefix_iff hne).1 hno)
  refine ⟨⟨?_, fun hno => ⟨_, hrefused hno⟩⟩, hrefused, not_confused⟩
  rintro ⟨err, herr⟩ hconfused
  obtain ⟨found, hfound⟩ := (binding_prefix_iff hne).2 hconfused
  rw [← hfound] at hopen
  rw [unwrap_of_binding hopen] at herr
  cases herr

/-- Ids of one length without zero characters, and a secret that starts with a zero byte. -/
theorem copied_material_refused :
    ∃ wrapped, (ofPassphrase "p" 1).wrap "key-1" (List.replicate 16 3) (List.replicate 8 4) [0, 1] =
        .ok wrapped ∧
      (ofPassphrase "p" 1).unwrap "key-1" wrapped = .ok [0, 1] ∧
      (ofPassphrase "p" 1).unwrap "key-2" wrapped = .error (.otherKey "key-2") := by
  obtain ⟨wrapped, hwrap, hopen, hother⟩ := wrapped_bound "p" 1 (List.replicate 16 3)
    (List.replicate 8 4) rfl rfl "key-1" [0, 1]
  obtain ⟨-, hrefused, hplain⟩ := hother "key-2" (by decide)
  exact ⟨wrapped, hwrap, hopen, hrefused (hplain (by decide) (by decide))⟩

/-- The material of an id with a zero character inside opens for what is in front of it, with the
rest of the id as part of the secret. -/
theorem zeroId_confused :
    ∃ wrapped, (ofPassphrase "p" 1).wrap "a\x00b" (List.replicate 16 3) (List.replicate 8 4) [1] =
        .ok wrapped ∧
      (ofPassphrase "p" 1).unwrap "a" wrapped = .ok [98, 0, 1] := by
  have hiv : (List.replicate 16 (3 : UInt8)).length = 16 := rfl
  have hsalt : (List.replicate 8 (4 : UInt8)).length = 8 := rfl
  obtain ⟨wrapped, hwrap, hopen⟩ :=
    exists_framed (length_ofPassphrase "p" 1) hiv hsalt "a\x00b" [1]
  have hframe : binding "a\x00b" ++ [1] = binding "a" ++ [98, 0, 1] := by decide
  rw [hframe] at hopen
  exact ⟨wrapped, hwrap, unwrap_of_binding hopen⟩

end SealedText.PassphraseKey
