import SealedText.Command.Run
import SealedText.Proofs.KeyringDistinct

/-!
# Commands one after another

A key file goes through any number of commands, each of which finds it as the one before left it. A
command that changes it adds a key, deletes one, or marks one as revoked (`changed_apply`), so ids
and names are distinct in every key file that started without keys (`distinct_afterAll`).
-/

namespace SealedText

theorem attempt_ok_iff {ε α : Type} {cause : ε → Cause} {activities : List Activity}
    {x : Except ε α} {a : α} : attempt cause activities x = .ok a ↔ x = .ok a :=
  mapError_eq_ok

theorem attempt_ok {ε α : Type} (cause : ε → Cause) (activities : List Activity) (a : α) :
    attempt cause activities (.ok a) = .ok a := rfl

/-- The changes that commands make: they add a key that is not marked, delete one, or mark one that
was not marked before. -/
inductive KeyChange.OfCommand (k : Keyring) : KeyChange → Prop
  | add {e : StoredKey} (h : e.revoked = false) : OfCommand k (.add e)
  | delete (id : String) : OfCommand k (.delete id)
  | mark {e : StoredKey} (he : e ∈ k.entries) (h : e.revoked = false) :
    OfCommand k (.update { e with revoked := true })

/-- A command with what it finds around it. -/
structure CommandCall where
  situation : Situation
  fresh : Fresh
  command : Command

namespace KeyStore

/-- A key file without keys. -/
def withoutKeys (path : String) : KeyStore := ⟨path, {}⟩

/-- The key file after a command. -/
def after (store : KeyStore) (c : CommandCall) : KeyStore :=
  match c.command.run c.situation c.fresh (.ok store) with
  | .ok outcome => outcome.changed.getD store
  | .error _ => store

def afterAll (store : KeyStore) (calls : List CommandCall) : KeyStore := calls.foldl after store

variable {store : KeyStore}

/-! ## Revoking -/

/-- Revoking a key that is found marks it, whether or not it was marked before. -/
theorem revoke_of_lookup (h : store.keyring.Distinct) {key : String} {e : StoredKey}
    (he : store.keyring.lookup key = .ok e) :
    ∃ changed, store.revoke key = .ok changed ∧
      changed.getD store = { store with keyring := store.keyring.marking e.id } := by
  have hmem := Keyring.mem_of_lookup he
  unfold revoke
  rw [he, attempt_ok, ok_bind]
  by_cases hrevoked : e.revoked = true
  · rw [if_pos hrevoked]
    refine ⟨none, rfl, ?_⟩
    rw [h.marking_of_revoked hmem hrevoked]
    rfl
  · rw [if_neg hrevoked]
    refine ⟨some { store with keyring := store.keyring.marking e.id }, ?_, rfl⟩
    have hupdate : store.apply (.update { e with revoked := true }) =
        .ok { store with keyring := store.keyring.marking e.id } := by
      rw [apply, Keyring.apply, h.update_revoked hmem, ok_bind]
      rfl
    rw [hupdate, attempt_ok]
    rfl

/-- Revoking a key writes the file only if the key was not marked before. -/
theorem revoke_changed {key : String} {changed : Option KeyStore}
    (h : store.revoke key = .ok changed) :
    changed = none ∨ ∃ e after, e ∈ store.keyring.entries ∧ e.revoked = false ∧
      store.apply (.update { e with revoked := true }) = .ok after ∧ changed = some after := by
  unfold revoke at h
  obtain ⟨e, he, h⟩ := bind_eq_ok.1 h
  split_ifs at h with hrevoked
  · cases h
    exact .inl rfl
  · obtain ⟨after, hafter, h⟩ := bind_eq_ok.1 h
    cases h
    exact .inr ⟨e, after, Keyring.mem_of_lookup (attempt_ok_iff.1 he), by simpa using hrevoked,
      attempt_ok_iff.1 hafter, rfl⟩

end KeyStore

theorem KeyStore.addSecret_ok {store after : KeyStore} {s : Situation} {fresh : Fresh}
    {name : String} {secret : Bytes} {protect : Bool}
    (h : store.addSecret s fresh name secret protect = .ok after) : ∃ material,
      store.apply (.add { id := fresh.id, name, material, wrapped := protect }) = .ok after := by
  unfold addSecret at h
  simp only [] at h
  split_ifs at h
  · obtain ⟨passphrase, -, h⟩ := bind_eq_ok.1 h
    obtain ⟨material, -, h⟩ := bind_eq_ok.1 h
    exact ⟨material, attempt_ok_iff.1 h⟩
  · exact ⟨secret, attempt_ok_iff.1 h⟩

theorem KeyStore.apply_ok {store after : KeyStore} {change : KeyChange}
    (h : store.apply change = .ok after) :
    ∃ keyring, store.keyring.apply change = .ok keyring ∧ after = { store with keyring } := by
  obtain ⟨keyring, hkeyring, h⟩ := bind_eq_ok.1 h
  cases h
  exact ⟨keyring, hkeyring, rfl⟩

namespace Command

variable {store : KeyStore} {s : Situation} {fresh : Fresh} {outcome : Outcome}

/-! ## What each command changes -/

theorem runEncrypt_changed {text key : Option String} {password base61 bare : Bool}
    (h : runEncrypt s fresh (.ok store) text key password base61 bare = .ok outcome) :
    outcome.changed = none := by
  unfold runEncrypt at h
  obtain ⟨text, -, h⟩ := bind_eq_ok.1 h
  split_ifs at h
  · obtain ⟨key, -, h⟩ := bind_eq_ok.1 h
    obtain ⟨token, -, h⟩ := bind_eq_ok.1 h
    cases h
    rfl
  · obtain ⟨opened, -, h⟩ := bind_eq_ok.1 h
    obtain ⟨e, -, h⟩ := bind_eq_ok.1 h
    obtain ⟨passphrase, -, h⟩ := bind_eq_ok.1 h
    obtain ⟨keys, -, h⟩ := bind_eq_ok.1 h
    obtain ⟨token, -, h⟩ := bind_eq_ok.1 h
    cases h
    rfl

/-- The names and keysets that a delivered text is tried with. -/
def candidates (store : KeyStore) (passphrase : Option PassphraseKey) : List (String × Keyset) :=
  store.keyring.entries.filterMap (StoredKey.candidate? passphrase)

theorem runDecrypt_ok {delivered : Option String} {password : Bool}
    (h : runDecrypt s (.ok store) delivered password = .ok outcome) :
    password = true ∧ outcome.changed = none ∨ password = false ∧ ∃ text passphrase,
      s.textOrInput delivered = .ok text ∧
      s.passphraseFor store.keyring.entries = .ok passphrase ∧
      afterOpening store (openAmong s.settings.transport.linkStart (candidates store passphrase)
        text) = .ok outcome.changed := by
  unfold runDecrypt at h
  obtain ⟨text, htext, h⟩ := bind_eq_ok.1 h
  simp only [] at h
  split_ifs at h with hpassword
  · obtain ⟨key, -, h⟩ := bind_eq_ok.1 h
    obtain ⟨output, -, h⟩ := bind_eq_ok.1 h
    cases h
    exact .inl ⟨hpassword, rfl⟩
  · obtain ⟨opened, hopened, h⟩ := bind_eq_ok.1 h
    cases hopened
    obtain ⟨-, h⟩ := check_bind_eq_ok.1 h
    obtain ⟨passphrase, hpassphrase, h⟩ := bind_eq_ok.1 h
    obtain ⟨-, h⟩ := check_bind_eq_ok.1 h
    obtain ⟨changed, hchanged, h⟩ := bind_eq_ok.1 h
    obtain ⟨output, -, h⟩ := bind_eq_ok.1 h
    cases h
    exact .inr ⟨by simpa using hpassword, text, passphrase, htext, hpassphrase, hchanged⟩

theorem afterOpening_ok {opened : Except OpeningError OpenedMessage} {changed : Option KeyStore}
    (h : afterOpening store opened = .ok changed) :
    (∃ name, opened = .ok ⟨name, .revocation⟩ ∧ store.revoke name = .ok changed) ∨
      (∀ name, opened ≠ .ok ⟨name, .revocation⟩) ∧ changed = none := by
  unfold afterOpening at h
  split at h
  · exact .inl ⟨_, rfl, h⟩
  · rename_i hother
    cases h
    exact .inr ⟨fun name hname => hother name hname, rfl⟩

theorem runList_changed (h : runList (.ok store) = .ok outcome) : outcome.changed = none := by
  unfold runList at h
  obtain ⟨opened, -, h⟩ := bind_eq_ok.1 h
  split_ifs at h <;> cases h <;> rfl

theorem runKeygen_ok {name : String} {protect : Bool}
    (h : runKeygen s fresh (.ok store) name protect = .ok outcome) : ∃ material after,
      store.apply (.add { id := fresh.id, name, material, wrapped := protect }) = .ok after ∧
        outcome.changed = some after := by
  unfold runKeygen at h
  obtain ⟨opened, hopened, h⟩ := bind_eq_ok.1 h
  cases hopened
  obtain ⟨framed, -, h⟩ := bind_eq_ok.1 h
  obtain ⟨after, hafter, h⟩ := bind_eq_ok.1 h
  cases h
  obtain ⟨material, hadd⟩ := KeyStore.addSecret_ok hafter
  exact ⟨material, after, hadd, rfl⟩

theorem runImport_ok {name : String} {keyText : Option String} {protect : Bool}
    (h : runImport s fresh (.ok store) name keyText protect = .ok outcome) : ∃ material after,
      store.apply (.add { id := fresh.id, name, material, wrapped := protect }) = .ok after ∧
        outcome.changed = some after := by
  unfold runImport at h
  obtain ⟨text, -, h⟩ := bind_eq_ok.1 h
  obtain ⟨secret, -, h⟩ := bind_eq_ok.1 h
  obtain ⟨opened, hopened, h⟩ := bind_eq_ok.1 h
  cases hopened
  obtain ⟨after, hafter, h⟩ := bind_eq_ok.1 h
  cases h
  obtain ⟨material, hadd⟩ := KeyStore.addSecret_ok hafter
  exact ⟨material, after, hadd, rfl⟩

theorem runRevoke_ok {key : String} (h : runRevoke s fresh (.ok store) key = .ok outcome) :
    ∃ e, store.keyring.lookup key = .ok e ∧ store.revoke e.name = .ok outcome.changed := by
  unfold runRevoke at h
  obtain ⟨opened, hopened, h⟩ := bind_eq_ok.1 h
  cases hopened
  obtain ⟨e, he, h⟩ := bind_eq_ok.1 h
  obtain ⟨passphrase, -, h⟩ := bind_eq_ok.1 h
  obtain ⟨keys, -, h⟩ := bind_eq_ok.1 h
  obtain ⟨notice, -, h⟩ := bind_eq_ok.1 h
  obtain ⟨changed, hchanged, h⟩ := bind_eq_ok.1 h
  cases h
  exact ⟨e, attempt_ok_iff.1 he, hchanged⟩

theorem runDelete_ok {key : String} (h : runDelete (.ok store) key = .ok outcome) :
    ∃ e after, store.keyring.lookup key = .ok e ∧ store.apply (.delete e.id) = .ok after ∧
      outcome.changed = some after := by
  unfold runDelete at h
  obtain ⟨opened, hopened, h⟩ := bind_eq_ok.1 h
  cases hopened
  obtain ⟨e, he, h⟩ := bind_eq_ok.1 h
  obtain ⟨after, hafter, h⟩ := bind_eq_ok.1 h
  cases h
  exact ⟨e, after, attempt_ok_iff.1 he, attempt_ok_iff.1 hafter, rfl⟩

/-- A command that writes the key file makes a single change. -/
theorem changed_apply {c : Command} (hrun : c.run s fresh (.ok store) = .ok outcome) :
    outcome.changed = none ∨ ∃ change after, change.OfCommand store.keyring ∧
      store.apply change = .ok after ∧ outcome.changed = some after := by
  have hmarks {key : String} (hrevoke : store.revoke key = .ok outcome.changed) :
      outcome.changed = none ∨ ∃ change after, change.OfCommand store.keyring ∧
        store.apply change = .ok after ∧ outcome.changed = some after := by
    rcases KeyStore.revoke_changed hrevoke with hnone | ⟨e, after, he, hrevoked, hupdate, hsome⟩
    · exact .inl hnone
    · exact .inr ⟨_, after, .mark he hrevoked, hupdate, hsome⟩
  cases c with
  | encrypt text key password base61 bare => exact .inl (runEncrypt_changed hrun)
  | decrypt delivered password =>
    rcases runDecrypt_ok hrun with ⟨-, hnone⟩ | ⟨-, text, passphrase, -, -, hafter⟩
    · exact .inl hnone
    · rcases afterOpening_ok hafter with ⟨name, -, hrevoke⟩ | ⟨-, hnone⟩
      · exact hmarks hrevoke
      · exact .inl hnone
  | keygen name protect =>
    obtain ⟨material, after, hadd, hsome⟩ := runKeygen_ok hrun
    exact .inr ⟨_, after, .add rfl, hadd, hsome⟩
  | importKey name keyText protect =>
    obtain ⟨material, after, hadd, hsome⟩ := runImport_ok hrun
    exact .inr ⟨_, after, .add rfl, hadd, hsome⟩
  | listKeys => exact .inl (runList_changed hrun)
  | revokeKey key =>
    obtain ⟨e, -, hrevoke⟩ := runRevoke_ok hrun
    exact hmarks hrevoke
  | deleteKey key =>
    obtain ⟨e, after, -, hdelete, hsome⟩ := runDelete_ok hrun
    exact .inr ⟨_, after, .delete e.id, hdelete, hsome⟩
  | showSettings =>
    cases hrun
    exact .inl rfl

end Command

namespace KeyStore

/-! ## Any number of commands -/

theorem distinct_apply {store after : KeyStore} {change : KeyChange}
    (h : store.keyring.Distinct) (hchange : change.OfCommand store.keyring)
    (happly : store.apply change = .ok after) : after.keyring.Distinct := by
  obtain ⟨keyring, hkeyring, rfl⟩ := apply_ok happly
  cases hchange with
  | add _ => exact h.add hkeyring
  | delete id => exact h.delete hkeyring
  | mark he _ =>
    have hmarks := (h.update_revoked he).symm.trans hkeyring
    cases hmarks
    exact Keyring.distinct_marking h _

/-- After a command the keys are as they were, or as one change leaves them. -/
theorem after_cases (store : KeyStore) (c : CommandCall) :
    store.after c = store ∨ ∃ change, change.OfCommand store.keyring ∧
      store.apply change = .ok (store.after c) := by
  unfold after
  split
  · rename_i outcome hrun
    rcases Command.changed_apply hrun with hnone | ⟨change, after, hchange, happly, hsome⟩
    · rw [hnone]
      exact .inl rfl
    · rw [hsome]
      exact .inr ⟨change, hchange, happly⟩
  · exact .inl rfl

theorem distinct_after {store : KeyStore} (h : store.keyring.Distinct) (c : CommandCall) :
    (store.after c).keyring.Distinct := by
  rcases after_cases store c with hsame | ⟨change, hchange, happly⟩
  · rw [hsame]
    exact h
  · exact distinct_apply h hchange happly

theorem distinct_afterAll : ∀ (calls : List CommandCall) {store : KeyStore}, store.keyring.Distinct →
    (store.afterAll calls).keyring.Distinct
  | [], _, h => h
  | c :: calls, _, h => distinct_afterAll calls (distinct_after h c)

theorem distinct_withoutKeys (path : String) : (withoutKeys path).keyring.Distinct :=
  Keyring.distinct_empty

end KeyStore

end SealedText
