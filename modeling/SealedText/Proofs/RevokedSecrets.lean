import SealedText.Proofs.CommandEffects
import SealedText.Proofs.KeyExchange

/-!
# A key that was given up seals nothing

A mark is on a key of the file, and `encrypt` takes only keys without one. A key without a mark was
there without it before, or a command has added it (`unrevoked_origin`). So after a key is given up,
what seals is another key: one that was added later, or one that was there and not given up
(`revoked_secret_retired`). The file does not compare secrets, so that other key may hold the same
one (`copied_secret_seals`).
-/

namespace SealedText

namespace KeyStore

/-- A key came into the file by one of the commands. -/
def AddedBy (store : KeyStore) (calls : List CommandCall) (x : StoredKey) : Prop :=
  ∃ earlier c, earlier ++ [c] <+: calls ∧
    (store.afterAll earlier).apply (.add x) = .ok (store.afterAll (earlier ++ [c]))

variable {store : KeyStore} {x : StoredKey}

theorem afterAll_concat (store : KeyStore) (calls : List CommandCall) (c : CommandCall) :
    store.afterAll (calls ++ [c]) = (store.afterAll calls).after c := by
  rw [afterAll, List.foldl_concat, ← afterAll]

theorem AddedBy.mono {calls more : List CommandCall} (h : store.AddedBy calls x)
    (hfront : calls <+: more) : store.AddedBy more x := by
  obtain ⟨earlier, c, hearlier, hadd⟩ := h
  exact ⟨earlier, c, hearlier.trans hfront, hadd⟩

theorem unrevoked_after {c : CommandCall} (hx : x ∈ (store.after c).keyring.entries)
    (hrevoked : x.revoked = false) :
    x ∈ store.keyring.entries ∨ store.apply (.add x) = .ok (store.after c) := by
  rcases store.after_cases c with hsame | ⟨change, hchange, happly⟩
  · rw [hsame] at hx
    exact .inl hx
  · obtain ⟨keyring, hkeyring, hafter⟩ := apply_ok happly
    rw [hafter] at hx
    rcases mem_of_apply hchange hkeyring hx with hx | ⟨y, -, rfl⟩ | ⟨rfl, -⟩
    · exact .inl hx
    · cases hrevoked
    · exact .inr happly

theorem unrevoked_origin (store : KeyStore) (calls : List CommandCall)
    (hx : x ∈ (store.afterAll calls).keyring.entries) (hrevoked : x.revoked = false) :
    x ∈ store.keyring.entries ∨ store.AddedBy calls x := by
  induction calls using List.reverseRecOn with
  | nil => exact .inl hx
  | append_singleton earlier c ih =>
    rw [afterAll_concat] at hx
    rcases unrevoked_after hx hrevoked with hx | hadd
    · exact (ih hx).imp_right fun h => h.mono (List.prefix_append _ _)
    · rw [← afterAll_concat] at hadd
      exact .inr ⟨earlier, c, List.prefix_rfl, hadd⟩

end KeyStore

namespace CommandCall

/-- A command gives up a key of the file whose secret it can read: its owner revokes it, or a notice
opens under it. -/
def Revokes (r : CommandCall) (store : KeyStore) (e : StoredKey) (secret : Bytes) : Prop :=
  (∃ outcome, r.command.run r.situation r.fresh (.ok store) = .ok outcome) ∧
    e ∈ store.keyring.entries ∧ ∃ passphrase, e.secret passphrase = .ok secret ∧
      ((∃ key, r.command = .revokeKey key ∧ store.keyring.lookup key = .ok e ∧
          r.situation.passphraseFor [e] = .ok passphrase) ∨
        r.OpensNotice store e.name ∧
          r.situation.passphraseFor store.keyring.entries = .ok passphrase)

variable {r : CommandCall} {store : KeyStore} {e : StoredKey} {secret : Bytes}

theorem Revokes.after_eq (h : r.Revokes store e secret) (hdistinct : store.keyring.Distinct)
    (hfree : ∀ x ∈ store.keyring.entries, x.id = e.name → x = e) :
    store.after r = { store with keyring := store.keyring.marking e.id } := by
  obtain ⟨⟨outcome, hrun⟩, he, passphrase, -, hways⟩ := h
  obtain ⟨changed, hchanged, hlands⟩ := exists_revoke hdistinct he
  have hmarks := hlands.own hfree
  rw [KeyStore.after, hrun]
  rcases hways with ⟨key, hcommand, hlookup, -⟩ | ⟨hnotice, -⟩
  · rw [hcommand] at hrun
    obtain ⟨found, hfound, hrevoke⟩ := Command.runRevoke_ok hrun
    rw [hlookup] at hfound
    cases hfound
    rw [hchanged] at hrevoke
    cases hrevoke
    exact hmarks
  · obtain ⟨delivered, text, found, hcommand, htext, hfound, hopened⟩ := hnotice
    rw [hcommand] at hrun
    rcases Command.runDecrypt_ok hrun with ⟨hpassword, -⟩ | ⟨-, other, p, hother, hp, hafter⟩
    · cases hpassword
    · rw [htext] at hother
      cases hother
      rw [hfound] at hp
      cases hp
      rw [hopened] at hafter
      have hrevoke : store.revoke e.name = .ok outcome.changed := hafter
      rw [hchanged] at hrevoke
      cases hrevoke
      exact hmarks

end CommandCall

theorem Keyring.mem_of_mem_marking {k : Keyring} {id : String} {x : StoredKey}
    (hx : x ∈ (k.marking id).entries) (hrevoked : x.revoked = false) :
    x ∈ k.entries ∧ x.id ≠ id := by
  obtain ⟨y, hy, rfl⟩ := List.mem_map.1 hx
  by_cases hid : y.id = id
  · rw [if_pos hid] at hrevoked
    cases hrevoked
  · rw [if_neg hid]
    exact ⟨hy, hid⟩

/-- What can seal when `e` has been given up in a file: a key that was added since, or another one
that was there and had not been given up. -/
def Remains (store after : KeyStore) (e : StoredKey) (more : List CommandCall) (x : StoredKey) :
    Prop :=
  after.AddedBy more x ∨ x ∈ store.keyring.entries ∧ x.id ≠ e.id ∧ x.revoked = false

/-- After a key of a file is given up, in any run of commands from a file without keys, whatever is
sealed is sealed with a key that remains. So its secret seals nothing unless a key that remains
holds it, and nothing is sealed under its keyset unless a key that remains has that keyset too. This
leaves out a key whose name is the id of another. -/
theorem revoked_secret_retired (path : String) (calls : List CommandCall) (r : CommandCall)
    (e : StoredKey) (secret : Bytes)
    (hrevokes : r.Revokes ((KeyStore.withoutKeys path).afterAll calls) e secret)
    (hfree : ∀ x ∈ ((KeyStore.withoutKeys path).afterAll calls).keyring.entries,
      x.id = e.name → x = e) :
    let store := (KeyStore.withoutKeys path).afterAll calls
    ∀ (more : List CommandCall) (c : CommandCall) text key base61 bare outcome,
      c.command = .encrypt text key false base61 bare →
      c.command.run c.situation c.fresh (.ok ((store.after r).afterAll more)) = .ok outcome →
      ∃ x used token, c.Seals ((store.after r).afterAll more) x used token ∧
        outcome.output = token ++ "\n" ∧ Remains store (store.after r) e more x ∧
        ((∀ y passphrase other, Remains store (store.after r) e more y →
            y.secret passphrase = .ok other → other ≠ secret) → used ≠ secret) ∧
        ((∀ y passphrase other, Remains store (store.after r) e more y →
            y.secret passphrase = .ok other →
            Keyset.ofSecret other ≠ Keyset.ofSecret secret) →
          Keyset.ofSecret used ≠ Keyset.ofSecret secret) := by
  intro store more c text key base61 bare outcome hcommand hrun
  have hdistinct : store.keyring.Distinct :=
    KeyStore.distinct_afterAll calls (KeyStore.distinct_withoutKeys path)
  obtain ⟨x, used, token, hx, hrevoked, hseals, houtput⟩ :=
    CommandCall.exists_seals hcommand hrun
  have hremains : Remains store (store.after r) e more x := by
    rcases KeyStore.unrevoked_origin _ more hx hrevoked with hx | hadded
    · rw [hrevokes.after_eq hdistinct hfree] at hx
      obtain ⟨hmem, hid⟩ := Keyring.mem_of_mem_marking hx hrevoked
      exact .inr ⟨hmem, hid, hrevoked⟩
    · exact .inl hadded
  obtain ⟨passphrase, hsecret⟩ : ∃ passphrase, x.secret passphrase = .ok used := by
    obtain ⟨_, _, _, _, _, passphrase, _, _, _, _, hsecret, -⟩ := hseals
    exact ⟨passphrase, hsecret⟩
  exact ⟨x, used, token, hseals, houtput, hremains,
    fun hother => hother x passphrase used hremains hsecret,
    fun hother => hother x passphrase used hremains hsecret⟩

/-! ## Copies -/

section Copies

variable {store : KeyStore} {s : Situation} {fresh : Fresh} {e : StoredKey}

theorem KeyStore.after_importKey {after : KeyStore} {name keyText : String} {secret : Bytes}
    (hsecret : Command.secretOfKeyText keyText = .ok secret)
    (h : store.apply (.add { id := fresh.id, name, material := secret }) = .ok after) :
    store.after ⟨s, fresh, .importKey name (some keyText) false⟩ = after := by
  have hadd : store.addSecret s fresh name secret false = .ok after := by
    rw [addSecret, if_neg Bool.false_ne_true]
    exact attempt_ok_iff.2 h
  unfold KeyStore.after
  rw [Command.run, Command.runImport, Situation.textOrInput, ok_bind, hsecret, ok_bind, ok_bind,
    hadd, ok_bind]
  rfl

/-- An unprotected key that is found for sealing seals any text. -/
theorem CommandCall.exists_seals_plain {key : Option String} (text : String)
    (hkey : store.keyring.sealingKey key = .ok e) (hplain : e.wrapped = false)
    (hsecret : e.material ≠ []) (hiv : fresh.iv.length = 16) :
    ∃ token, Seals ⟨s, fresh, .encrypt (some text) key false false false⟩ store e e.material
        token ∧
      Command.run s fresh (.ok store) (.encrypt (some text) key false false false) =
        .ok { output := token ++ "\n" } := by
  obtain ⟨keys, hkeys⟩ := Keyset.exists_ofSecret hsecret
  obtain ⟨htext, hauth⟩ := Keyset.length_ofSecret hkeys
  obtain ⟨sealed, hseal, -⟩ := Keyset.exists_seal htext hauth hiv (s.style false false) (.text text)
  have hopen : e.secret none = .ok e.material := by
    rw [StoredKey.secret, if_neg (by rw [hplain]; exact Bool.false_ne_true)]
  have hpassphrase : s.passphraseFor [e] = .ok none := by
    rw [Situation.passphraseFor, if_neg (by simp [hplain])]
    rfl
  refine ⟨_, ⟨some text, key, false, false, text, none, keys, rfl, hkey, hpassphrase, hopen, hkeys,
    rfl, hseal⟩, ?_⟩
  rw [Command.run, Command.runEncrypt, Situation.textOrInput, ok_bind]
  simp only [Bool.false_eq_true, if_false]
  rw [ok_bind, hkey, ok_bind, hpassphrase, ok_bind, StoredKey.keyset_of_secret hopen hkeys, ok_bind,
    hseal]
  rfl

theorem CommandCall.revokes_plain (h : store.keyring.Distinct) {key : String}
    (hlookup : store.keyring.lookup key = .ok e) (hplain : e.wrapped = false)
    (hsecret : e.material ≠ []) (hiv : fresh.iv.length = 16) :
    Revokes ⟨s, fresh, .revokeKey key⟩ store e e.material := by
  obtain ⟨keys, hkeys, htext, hauth⟩ := e.exists_keyset hplain hsecret
  obtain ⟨sealed, hnotice, -⟩ := Keyset.exists_seal htext hauth hiv (s.style false false)
    .revocation
  have hpassphrase : s.passphraseFor [e] = .ok none := by
    rw [Situation.passphraseFor, if_neg (by simp [hplain])]
    rfl
  obtain ⟨outcome, hrun, -⟩ := revokeKey_lands h hlookup hpassphrase hkeys hnotice
  refine ⟨⟨outcome, hrun⟩, Keyring.mem_of_lookup hlookup, none, ?_, .inl ⟨key, rfl, hlookup,
    hpassphrase⟩⟩
  rw [StoredKey.secret, if_neg (by rw [hplain]; exact Bool.false_ne_true)]

/-- A new key after the first one was given up. -/
theorem newKey_remains :
    let alice : StoredKey := { id := "1", name := "alice", material := List.replicate 32 1 }
    let bob : StoredKey := { id := "2", name := "bob", material := List.replicate 32 2 }
    let fresh (e : StoredKey) : Fresh :=
      ⟨e.material, e.id, List.replicate 16 0, List.replicate 8 0⟩
    let store := (KeyStore.withoutKeys "keys.json").afterAll
      [⟨{}, fresh alice, .keygen "alice" false⟩]
    let r : CommandCall := ⟨{}, fresh alice, .revokeKey "alice"⟩
    let more : List CommandCall := [⟨{}, fresh bob, .keygen "bob" false⟩]
    let c : CommandCall := ⟨{}, fresh bob, .encrypt (some "hi") (some "bob") false false false⟩
    r.Revokes store alice alice.material ∧ ∃ x used token,
      c.Seals ((store.after r).afterAll more) x used token ∧
        Remains store (store.after r) alice more x := by
  intro alice bob fresh store r more c
  have hstore : store = ⟨"keys.json", ⟨[alice]⟩⟩ := KeyStore.after_keygen rfl
  have hdistinct : store.keyring.Distinct :=
    KeyStore.distinct_afterAll _ (KeyStore.distinct_withoutKeys _)
  have hlookup : store.keyring.lookup "alice" = .ok alice := by rw [hstore]; rfl
  have hrevokes : r.Revokes store alice alice.material :=
    CommandCall.revokes_plain hdistinct hlookup rfl (by decide) rfl
  have hfree : ∀ x ∈ store.keyring.entries, x.id = alice.name → x = alice := by
    rw [hstore]
    intro x hx _
    exact List.mem_singleton.1 hx
  have hrevoked : store.after r = ⟨"keys.json", ⟨[{ alice with revoked := true }]⟩⟩ := by
    rw [hrevokes.after_eq hdistinct hfree, hstore]
    rfl
  have hmore : (store.after r).afterAll more =
      ⟨"keys.json", ⟨[{ alice with revoked := true }, bob]⟩⟩ := by
    rw [hrevoked]
    exact KeyStore.after_keygen rfl
  have hkey : ((store.after r).afterAll more).keyring.sealingKey (some "bob") = .ok bob := by
    rw [hmore]
    rfl
  have hiv : (fresh bob).iv.length = 16 := rfl
  obtain ⟨_, -, hrun⟩ := CommandCall.exists_seals_plain (s := c.situation) "hi" hkey rfl
    (by decide) hiv
  obtain ⟨x, used, token, hseals, -, hremains, -⟩ := revoked_secret_retired "keys.json"
    [⟨{}, fresh alice, .keygen "alice" false⟩] r alice alice.material hrevokes hfree more c _ _ _ _
      _ rfl hrun
  exact ⟨hrevokes, x, used, token, hseals, hremains⟩

/-- Somebody keeps a key under two names. After one of them is given up the other still seals under
the same secret, though nothing was added. -/
theorem copied_secret_seals :
    let alice : StoredKey := { id := "1", name := "alice", material := List.replicate 32 1 }
    let bob : StoredKey := { alice with id := "2", name := "bob" }
    let fresh (e : StoredKey) : Fresh :=
      ⟨List.replicate 32 1, e.id, List.replicate 16 0, List.replicate 8 0⟩
    let r : CommandCall := ⟨{}, fresh alice, .revokeKey "alice"⟩
    let c : CommandCall := ⟨{}, fresh bob, .encrypt (some "hi") (some "bob") false false false⟩
    ∃ framed, Checksum.attach alice.material = .ok framed ∧
      let keyText := Base61.spaced 5 (Base61.encode framed)
      let store := (KeyStore.withoutKeys "keys.json").afterAll [
        ⟨{}, fresh alice, .keygen "alice" false⟩,
        ⟨{}, fresh bob, .importKey "bob" (some keyText) false⟩]
      r.Revokes store alice alice.material ∧
        (store.after r).keyring.entries = [{ alice with revoked := true }, bob] ∧
        ∃ token, c.Seals (store.after r) bob alice.material token ∧
          c.command.run c.situation c.fresh (.ok (store.after r)) =
            .ok { output := token ++ "\n" } := by
  intro alice bob fresh r c
  obtain ⟨framed, hframed⟩ := Checksum.exists_attach alice.material
  refine ⟨framed, hframed, ?_⟩
  intro keyText store
  obtain ⟨hread, hverify⟩ := Checksum.read_copied hframed (rfl : Base61.visible keyText = _)
  have hsecret := Command.secretOfKeyText_of_read hread hverify (by decide)
  have halice : (KeyStore.withoutKeys "keys.json").after ⟨{}, fresh alice, .keygen "alice" false⟩ =
      ⟨"keys.json", ⟨[alice]⟩⟩ := KeyStore.after_keygen rfl
  have hstore : store = ⟨"keys.json", ⟨[alice, bob]⟩⟩ := by
    change KeyStore.after (KeyStore.after _ _) _ = _
    rw [halice]
    exact KeyStore.after_importKey hsecret rfl
  have hdistinct : store.keyring.Distinct :=
    KeyStore.distinct_afterAll _ (KeyStore.distinct_withoutKeys _)
  have hlookup : store.keyring.lookup "alice" = .ok alice := by rw [hstore]; rfl
  have hrevokes : r.Revokes store alice alice.material :=
    CommandCall.revokes_plain hdistinct hlookup rfl (by decide) rfl
  have hfree : ∀ x ∈ store.keyring.entries, x.id = alice.name → x = alice := by
    rw [hstore]
    decide
  have hrevoked : store.after r = ⟨"keys.json", ⟨[{ alice with revoked := true }, bob]⟩⟩ := by
    rw [hrevokes.after_eq hdistinct hfree, hstore]
    rfl
  have hkey : (store.after r).keyring.sealingKey (some "bob") = .ok bob := by
    rw [hrevoked]
    rfl
  refine ⟨hrevokes, congrArg (·.keyring.entries) hrevoked, ?_⟩
  exact CommandCall.exists_seals_plain "hi" hkey rfl (by decide) rfl

end Copies

end SealedText
