import SealedText.Proofs.CommandRuns
import SealedText.Proofs.Delivery

/-!
# Where revocations land

A key is given up by its owner or by a notice that opens under it. Either way its name is looked up
again before it is marked, and ids come first in a look-up. So the mark lands on the key it is meant
for unless the name of that key is the id of another one; then it lands there (`revocation_lands`,
`revocation_strays`).
-/

namespace SealedText

/-- What a revocation of `e` leaves behind: `e` is marked and nothing else, unless its name is the
id of a key. In that case that key is the one that is marked. -/
structure RevocationLands (store : KeyStore) (e : StoredKey) (after : KeyStore) : Prop where
  own : (∀ x ∈ store.keyring.entries, x.id = e.name → x = e) →
    after = { store with keyring := store.keyring.marking e.id }
  named : ∀ x ∈ store.keyring.entries, x.id = e.name →
    after = { store with keyring := store.keyring.marking x.id }

section Marking

variable {store : KeyStore} {e : StoredKey}

/-- A name finds its key, unless it is an id. -/
theorem Keyring.Distinct.exists_lookup_name {k : Keyring} (h : k.Distinct) (he : e ∈ k.entries) :
    ∃ found, k.lookup e.name = .ok found ∧
      ((∀ x ∈ k.entries, x.id = e.name → x = e) → found = e) ∧
      ∀ x ∈ k.entries, x.id = e.name → found = x := by
  by_cases hid : ∃ x ∈ k.entries, x.id = e.name
  · obtain ⟨x, hx, hid⟩ := hid
    refine ⟨x, hid ▸ h.lookup_id hx, fun hfree => hfree x hx hid, fun y hy hyid => ?_⟩
    exact List.inj_on_of_nodup_map h.ids hx hy (hid.trans hyid.symm)
  · have hno : ∀ x ∈ k.entries, x.id ≠ e.name := fun x hx hx' => hid ⟨x, hx, hx'⟩
    exact ⟨e, h.lookup_name he fun x hx hx' => absurd hx' (hno x hx), fun _ => rfl,
      fun x hx hx' => absurd hx' (hno x hx)⟩

theorem exists_revoke (h : store.keyring.Distinct) (he : e ∈ store.keyring.entries) :
    ∃ changed, store.revoke e.name = .ok changed ∧
      RevocationLands store e (changed.getD store) := by
  obtain ⟨found, hfound, hown, hnamed⟩ := h.exists_lookup_name he
  obtain ⟨changed, hrevoke, hmarks⟩ := KeyStore.revoke_of_lookup h hfound
  refine ⟨changed, hrevoke, fun hfree => ?_, fun x hx hid => ?_⟩
  · rw [← hown hfree]
    exact hmarks
  · rw [← hnamed x hx hid]
    exact hmarks

end Marking

section Commands

variable {store : KeyStore} {s : Situation} {fresh : Fresh} {e : StoredKey}

theorem revokeKey_lands (h : store.keyring.Distinct) {key : String}
    (hlookup : store.keyring.lookup key = .ok e) {passphrase : Option PassphraseKey}
    (hpassphrase : s.passphraseFor [e] = .ok passphrase) {keys : Keyset}
    (hkeys : e.keyset passphrase = .ok keys) {notice : String}
    (hnotice : keys.seal (s.style false false) fresh.iv .revocation = .ok notice) :
    ∃ outcome, Command.run s fresh (.ok store) (.revokeKey key) = .ok outcome ∧
      RevocationLands store e (outcome.changed.getD store) := by
  obtain ⟨changed, hchanged, hlands⟩ := exists_revoke h (Keyring.mem_of_lookup hlookup)
  refine ⟨⟨s!"Key '{e.name}' revoked. Send this notice to the other party:\n\n" ++ notice ++ "\n",
    changed⟩, ?_, hlands⟩
  rw [Command.run, Command.runRevoke, ok_bind, hlookup, attempt_ok, ok_bind, hpassphrase, ok_bind,
    hkeys, ok_bind, hnotice, attempt_ok, ok_bind, hchanged, ok_bind]
  rfl

theorem mem_candidates {passphrase : Option PassphraseKey} {name : String} {keys : Keyset}
    (h : (name, keys) ∈ Command.candidates store passphrase) :
    ∃ e ∈ store.keyring.entries, e.name = name ∧ e.keyset passphrase = .ok keys := by
  obtain ⟨e, he, hcandidate⟩ := List.mem_filterMap.1 h
  refine ⟨e, he, ?_⟩
  unfold StoredKey.candidate? at hcandidate
  split at hcandidate
  · rename_i found hfound
    cases hcandidate
    exact ⟨rfl, hfound⟩
  · cases hcandidate

theorem runDecrypt_of_opened {delivered : Option String} {text : String}
    (htext : s.textOrInput delivered = .ok text) {passphrase : Option PassphraseKey}
    (hpassphrase : s.passphraseFor store.keyring.entries = .ok passphrase) {opened : OpenedMessage}
    (hopened : openAmong s.settings.transport.linkStart (Command.candidates store passphrase)
      text = .ok opened) {changed : Option KeyStore}
    (hchanged : Command.afterOpening store (.ok opened) = .ok changed) :
    Command.runDecrypt s (.ok store) delivered false =
      .ok { output := opened.toText ++ "\n", changed } := by
  obtain ⟨keys, hmem, -⟩ := openAmong_ok hopened
  obtain ⟨e, he, -⟩ := mem_candidates hmem
  have hentries : store.keyring.entries.isEmpty = false := by
    rw [List.isEmpty_eq_false_iff]
    exact List.ne_nil_of_mem he
  have hcandidates : (Command.candidates store passphrase).isEmpty = false := by
    rw [List.isEmpty_eq_false_iff]
    exact List.ne_nil_of_mem hmem
  unfold Command.candidates at hopened hcandidates
  unfold Command.runDecrypt
  rw [htext, ok_bind]
  simp only [Bool.false_eq_true, if_false, ok_bind, hentries, hpassphrase, hcandidates, hopened,
    hchanged]
  rfl

theorem decrypt_lands (h : store.keyring.Distinct) {delivered : Option String} {text : String}
    (htext : s.textOrInput delivered = .ok text) {passphrase : Option PassphraseKey}
    (hpassphrase : s.passphraseFor store.keyring.entries = .ok passphrase) {name : String}
    (hopened : openAmong s.settings.transport.linkStart (Command.candidates store passphrase)
      text = .ok ⟨name, .revocation⟩) :
    ∃ e ∈ store.keyring.entries, e.name = name ∧
      (∃ keys, e.keyset passphrase = .ok keys ∧
        ∃ sealed ∈ readings s.settings.transport.linkStart text, ∃ payload,
          Envelope.decrypt .standard keys sealed = .ok payload ∧
            Payload.read payload = .ok .revocation) ∧
      ∃ outcome, Command.run s fresh (.ok store) (.decrypt delivered false) = .ok outcome ∧
        RevocationLands store e (outcome.changed.getD store) := by
  obtain ⟨keys, hmem, hauthentic⟩ := openAmong_ok hopened
  obtain ⟨e, he, rfl, hkeys⟩ := mem_candidates hmem
  obtain ⟨changed, hchanged, hlands⟩ := exists_revoke h he
  exact ⟨e, he, rfl, ⟨keys, hkeys, hauthentic⟩, _,
    runDecrypt_of_opened htext hpassphrase hopened hchanged, hlands⟩

end Commands

/-! ## Keys made by commands -/

theorem Checksum.exists_attach (secret : Bytes) : ∃ framed, attach secret = .ok framed := by
  have hkey : Checksum.key.length = Engine.standard.keySize := List.length_replicate
  obtain ⟨tag, htag, -⟩ := exists_macOf Engine.lawful_standard (by decide) hkey secret
  exact ⟨secret ++ tag, bind_eq_ok.2 ⟨tag, htag, rfl⟩⟩

theorem StoredKey.exists_keyset (e : StoredKey) (hplain : e.wrapped = false)
    (hsecret : e.material ≠ []) : ∃ keys, e.keyset none = .ok keys ∧
      keys.text.bytes.length = 96 ∧ keys.auth.bytes.length = 96 := by
  obtain ⟨keys, hkeys⟩ := Keyset.exists_ofSecret hsecret
  refine ⟨keys, ?_, Keyset.length_ofSecret hkeys⟩
  rw [keyset, secret, if_neg (by rw [hplain]; exact Bool.false_ne_true), attempt_ok, ok_bind, hkeys]
  rfl

theorem Command.exists_keygen {store after : KeyStore} {s : Situation} {fresh : Fresh}
    {name : String}
    (h : store.apply (.add { id := fresh.id, name, material := fresh.secret }) = .ok after) :
    ∃ output, Command.run s fresh (.ok store) (.keygen name false) = .ok ⟨output, some after⟩ := by
  obtain ⟨framed, hframed⟩ := Checksum.exists_attach fresh.secret
  have hadd : store.addSecret s fresh name fresh.secret false = .ok after := by
    rw [KeyStore.addSecret, if_neg Bool.false_ne_true]
    exact attempt_ok_iff.2 h
  rw [Command.run, Command.runKeygen, ok_bind, hframed, attempt_ok, ok_bind, hadd, ok_bind]
  exact ⟨_, rfl⟩

theorem KeyStore.after_keygen {store after : KeyStore} {s : Situation} {fresh : Fresh}
    {name : String}
    (h : store.apply (.add { id := fresh.id, name, material := fresh.secret }) = .ok after) :
    store.after ⟨s, fresh, .keygen name false⟩ = after := by
  obtain ⟨output, hrun⟩ := Command.exists_keygen h
  unfold KeyStore.after
  rw [hrun]
  rfl

/-! ## Reachable key files -/

/-- In every key file that commands make from an empty one, a revocation marks the key that it is
about and no other, unless the name of that key is the id of a key. -/
theorem revocation_lands (path : String) (calls : List CommandCall) :
    let store := (KeyStore.withoutKeys path).afterAll calls
    store.keyring.Distinct ∧ ∀ (s : Situation) (fresh : Fresh),
      (∀ key e passphrase keys notice, store.keyring.lookup key = .ok e →
        s.passphraseFor [e] = .ok passphrase → e.keyset passphrase = .ok keys →
        keys.seal (s.style false false) fresh.iv .revocation = .ok notice →
        ∃ outcome, Command.run s fresh (.ok store) (.revokeKey key) = .ok outcome ∧
          RevocationLands store e (outcome.changed.getD store)) ∧
      ∀ delivered text passphrase name, s.textOrInput delivered = .ok text →
        s.passphraseFor store.keyring.entries = .ok passphrase →
        openAmong s.settings.transport.linkStart (Command.candidates store passphrase) text =
          .ok ⟨name, .revocation⟩ →
        ∃ e ∈ store.keyring.entries, e.name = name ∧
          (∃ keys, e.keyset passphrase = .ok keys ∧
            ∃ sealed ∈ readings s.settings.transport.linkStart text, ∃ payload,
              Envelope.decrypt .standard keys sealed = .ok payload ∧
                Payload.read payload = .ok .revocation) ∧
          ∃ outcome, Command.run s fresh (.ok store) (.decrypt delivered false) = .ok outcome ∧
            RevocationLands store e (outcome.changed.getD store) := by
  intro store
  have hdistinct : store.keyring.Distinct :=
    KeyStore.distinct_afterAll calls (KeyStore.distinct_withoutKeys path)
  refine ⟨hdistinct, fun s fresh => ⟨?_, ?_⟩⟩
  · intro key e passphrase keys notice hlookup hpassphrase hkeys hnotice
    exact revokeKey_lands hdistinct hlookup hpassphrase hkeys hnotice
  · intro delivered text passphrase name htext hpassphrase hopened
    exact decrypt_lands hdistinct htext hpassphrase hopened

theorem alice_revoked :
    let alice : StoredKey :=
      { id := "11111111-1111-4111-8111-111111111111", name := "alice",
        material := List.replicate 32 1 }
    let fresh : Fresh := ⟨alice.material, alice.id, List.replicate 16 0, List.replicate 8 0⟩
    let store := (KeyStore.withoutKeys "keys.json").afterAll [⟨{}, fresh, .keygen "alice" false⟩]
    ∃ outcome, Command.run {} fresh (.ok store) (.revokeKey "alice") = .ok outcome ∧
      (outcome.changed.getD store).keyring.entries = [{ alice with revoked := true }] := by
  intro alice fresh store
  have hmade : (KeyStore.withoutKeys "keys.json").after ⟨{}, fresh, .keygen "alice" false⟩ =
      ⟨"keys.json", ⟨[alice]⟩⟩ := KeyStore.after_keygen rfl
  have hstore : store = ⟨"keys.json", ⟨[alice]⟩⟩ := hmade
  have hlookup : store.keyring.lookup "alice" = .ok alice := by rw [hstore]; rfl
  obtain ⟨keys, hkeys, ht, ha⟩ := alice.exists_keyset rfl (by decide)
  have hiv : fresh.iv.length = 16 := rfl
  obtain ⟨sealed, hnotice, -⟩ := Keyset.exists_seal ht ha hiv (Situation.style {} false false)
    .revocation
  obtain ⟨outcome, hrun, hlands⟩ := ((revocation_lands "keys.json"
    [⟨{}, fresh, .keygen "alice" false⟩]).2 {} fresh).1 "alice" alice none keys _ hlookup rfl hkeys
      hnotice
  have honly : ∀ x ∈ store.keyring.entries, x.id = alice.name → x = alice := by
    rw [hstore]
    intro x hx _
    exact List.mem_singleton.1 hx
  have hafter : outcome.changed.getD store =
      { store with keyring := store.keyring.marking alice.id } := hlands.own honly
  refine ⟨outcome, hrun, ?_⟩
  rw [hafter, hstore]
  rfl

/-- The second key has the id of the first as its name, so giving it up marks the first. -/
theorem revocation_strays :
    let first : StoredKey :=
      { id := "11111111-1111-4111-8111-111111111111", name := "alice",
        material := List.replicate 32 1 }
    let second : StoredKey :=
      { id := "22222222-2222-4222-8222-222222222222", name := first.id,
        material := List.replicate 32 2 }
    let fresh (e : StoredKey) : Fresh :=
      ⟨e.material, e.id, List.replicate 16 0, List.replicate 8 0⟩
    let store := (KeyStore.withoutKeys "keys.json").afterAll
      [⟨{}, fresh first, .keygen first.name false⟩, ⟨{}, fresh second, .keygen second.name false⟩]
    store.keyring.lookup second.id = .ok second ∧
      ∃ outcome, Command.run {} (fresh first) (.ok store) (.revokeKey second.id) = .ok outcome ∧
        (outcome.changed.getD store).keyring.entries = [{ first with revoked := true }, second] := by
  intro first second fresh store
  have hfirst : (KeyStore.withoutKeys "keys.json").after
      ⟨{}, fresh first, .keygen first.name false⟩ = ⟨"keys.json", ⟨[first]⟩⟩ :=
    KeyStore.after_keygen rfl
  have hsecond : KeyStore.after ⟨"keys.json", ⟨[first]⟩⟩
      ⟨{}, fresh second, .keygen second.name false⟩ = ⟨"keys.json", ⟨[first, second]⟩⟩ :=
    KeyStore.after_keygen rfl
  have hstore : store = ⟨"keys.json", ⟨[first, second]⟩⟩ := by
    simp only [store, KeyStore.afterAll, List.foldl_cons, List.foldl_nil, hfirst, hsecond]
  have hdistinct : store.keyring.Distinct :=
    KeyStore.distinct_afterAll _ (KeyStore.distinct_withoutKeys _)
  have hlookup : store.keyring.lookup second.id = .ok second := by rw [hstore]; rfl
  obtain ⟨keys, hkeys, ht, ha⟩ := second.exists_keyset rfl (by decide)
  have hiv : (fresh first).iv.length = 16 := rfl
  obtain ⟨sealed, hnotice, -⟩ := Keyset.exists_seal ht ha hiv (Situation.style {} false false)
    .revocation
  obtain ⟨outcome, hrun, hlands⟩ := revokeKey_lands hdistinct hlookup rfl hkeys hnotice
  refine ⟨hlookup, outcome, hrun, ?_⟩
  rw [hlands.named first (by rw [hstore]; exact List.mem_cons_self) rfl, hstore]
  rfl

end SealedText
