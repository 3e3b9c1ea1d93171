import SealedText.Proofs.FileSessions
import SealedText.Proofs.KeyFileDurable
import SealedText.Proofs.RevocationTarget

/-!
# What commands do to the keys

A session that is not done leaves all files as they are. One that is done may change the key file
that its settings name, and only as its command allows (`Changes`): a new key comes last, a deleted
one leaves the others in their order, and a revocation sets one flag at most. So no command clears a
flag, and only a key without one seals (`commands_change`).
-/

namespace SealedText

/-- At most one key becomes marked. Nothing else changes. -/
inductive MarksOne : List StoredKey → List StoredKey → Prop
  | none (entries : List StoredKey) : MarksOne entries entries
  | one {before rest : List StoredKey} {e : StoredKey} (h : e.revoked = false) :
    MarksOne (before ++ e :: rest) (before ++ { e with revoked := true } :: rest)

namespace CommandCall

/-- A delivered text opens as a notice among the keys of a file. -/
def OpensNotice (c : CommandCall) (store : KeyStore) (name : String) : Prop :=
  ∃ delivered text passphrase, c.command = .decrypt delivered false ∧
    c.situation.textOrInput delivered = .ok text ∧
    c.situation.passphraseFor store.keyring.entries = .ok passphrase ∧
    openAmong c.situation.settings.transport.linkStart (Command.candidates store passphrase) text =
      .ok ⟨name, .revocation⟩

/-- A text is sealed under the keyset that a key of the file draws from its secret. -/
def Seals (c : CommandCall) (store : KeyStore) (e : StoredKey) (secret : Bytes) (token : String) :
    Prop :=
  ∃ text key base61 bare plain passphrase keys,
    c.command = .encrypt text key false base61 bare ∧ store.keyring.sealingKey key = .ok e ∧
    c.situation.passphraseFor [e] = .ok passphrase ∧ e.secret passphrase = .ok secret ∧
    Keyset.ofSecret secret = .ok keys ∧ c.situation.textOrInput text = .ok plain ∧
    keys.seal (c.situation.style base61 bare) c.fresh.iv (.text plain) = .ok token

/-- What a command that succeeds may make of the keys. -/
def Changes (c : CommandCall) (store : KeyStore) (after : List StoredKey) : Prop :=
  match c.command with
  | .keygen name protect | .importKey name _ protect =>
    ∃ e : StoredKey, e.id = c.fresh.id ∧ e.name = name ∧ e.wrapped = protect ∧ e.revoked = false ∧
      after = store.keyring.entries ++ [e]
  | .deleteKey key =>
    ∃ before e rest, store.keyring.lookup key = .ok e ∧
      store.keyring.entries = before ++ e :: rest ∧ after = before ++ rest
  | .revokeKey _ => MarksOne store.keyring.entries after
  | .decrypt _ _ =>
    ((∃ name, c.OpensNotice store name) → MarksOne store.keyring.entries after) ∧
      ((¬ ∃ name, c.OpensNotice store name) → after = store.keyring.entries)
  | .encrypt .. | .listKeys | .showSettings => after = store.keyring.entries

end CommandCall

section Changes

variable {store : KeyStore} {change : KeyChange} {k k' : Keyring} {e x : StoredKey}

theorem Keyring.Distinct.eq_of_id (h : k.Distinct) (he : e ∈ k.entries) (hx : x ∈ k.entries)
    (hid : x.id = e.id) : x = e :=
  List.inj_on_of_nodup_map h.ids hx he hid

theorem marksOne_of_revoke (h : store.keyring.Distinct) {key : String} {changed : Option KeyStore}
    (hrevoke : store.revoke key = .ok changed) :
    MarksOne store.keyring.entries (changed.getD store).keyring.entries := by
  rcases KeyStore.revoke_changed hrevoke with rfl | ⟨e, after, he, hrevoked, hupdate, rfl⟩
  · exact .none _
  · obtain ⟨keyring, hkeyring, rfl⟩ := KeyStore.apply_ok hupdate
    rcases store with ⟨path, ⟨entries⟩⟩
    rcases keyring with ⟨entries'⟩
    have heffect : (KeyChange.update { e with revoked := true }).Effect entries entries' :=
      Keyring.apply_ok_iff.1 hkeyring
    cases heffect with
    | @update before rest x _ hid _ =>
      obtain rfl := h.eq_of_id he (by simp) hid
      exact .one hrevoked

/-- After the change of a command there are old keys, old keys that are marked, and a new key. -/
theorem mem_of_apply (hchange : change.OfCommand k) (happly : k.apply change = .ok k')
    (hx : x ∈ k'.entries) :
    x ∈ k.entries ∨ (∃ y ∈ k.entries, x = { y with revoked := true }) ∨
      change = .add x ∧ ∀ y ∈ k.entries, y.id ≠ x.id := by
  rcases k with ⟨entries⟩
  rcases k' with ⟨entries'⟩
  have heffect : change.Effect entries entries' := Keyring.apply_ok_iff.1 happly
  cases hchange with
  | @add e _ =>
    cases heffect with
    | add hid _ =>
      rcases List.mem_append.1 hx with hx | hx
      · exact .inl hx
      · obtain rfl := List.mem_singleton.1 hx
        exact .inr (.inr ⟨rfl, hid⟩)
  | delete id =>
    cases heffect with
    | delete _ => exact .inl (List.mem_of_mem_filter hx)
  | @mark e he _ =>
    cases heffect with
    | update _ _ =>
      rcases List.mem_append.1 hx with hx | hx
      · exact .inl (List.mem_append_left _ hx)
      · rcases List.mem_cons.1 hx with rfl | hx
        · exact .inr (.inl ⟨e, he, rfl⟩)
        · exact .inl (List.mem_append_right _ (List.mem_cons_of_mem _ hx))

/-- The change of a command is one that shows. -/
theorem entries_ne_of_apply (h : k.Distinct) (hchange : change.OfCommand k)
    (happly : k.apply change = .ok k') : k'.entries ≠ k.entries := by
  rcases k with ⟨entries⟩
  rcases k' with ⟨entries'⟩
  have heffect : change.Effect entries entries' := Keyring.apply_ok_iff.1 happly
  cases hchange with
  | add _ =>
    cases heffect with
    | add _ _ => simp
  | delete id =>
    cases heffect with
    | delete hfound =>
      obtain ⟨x, hx, hid⟩ := hfound
      intro hsame
      have hkept := List.filter_eq_self.1 hsame x hx
      simp [hid] at hkept
  | @mark e he hrevoked =>
    cases heffect with
    | @update before rest x _ hid _ =>
      obtain rfl := h.eq_of_id he (by simp) hid
      intro hsame
      have hx := congrArg StoredKey.revoked (List.cons.inj (List.append_cancel_left hsame)).1
      simp [hrevoked] at hx

theorem entries_add (hadd : k.add e = .ok k') : k'.entries = k.entries ++ [e] := by
  unfold Keyring.add at hadd
  split_ifs at hadd
  cases hadd
  rfl

theorem entries_delete (h : k.Distinct) (he : e ∈ k.entries) (hdelete : k.delete e.id = .ok k') :
    ∃ before rest, k.entries = before ++ e :: rest ∧ k'.entries = before ++ rest := by
  unfold Keyring.delete at hdelete
  split_ifs at hdelete
  cases hdelete
  obtain ⟨before, rest, hentries⟩ := List.append_of_mem he
  refine ⟨before, rest, hentries, ?_⟩
  have hids := h.ids
  rw [hentries, List.map_append, List.map_cons, List.nodup_middle, List.nodup_cons,
    ← List.map_append] at hids
  have hothers : ∀ x ∈ before ++ rest, (x.id != e.id) = true := fun x hx => by
    simpa using fun hid => hids.1 (List.mem_map.2 ⟨x, hx, hid⟩)
  simp only [hentries]
  rw [List.filter_append, List.filter_cons_of_neg (by simp), ← List.filter_append,
    List.filter_eq_self.2 hothers]

end Changes

namespace CommandCall

variable {c : CommandCall} {store : KeyStore} {outcome : Outcome}

theorem changes_of_run (h : store.keyring.Distinct)
    (hrun : c.command.run c.situation c.fresh (.ok store) = .ok outcome) :
    c.Changes store (outcome.changed.getD store).keyring.entries := by
  rcases c with ⟨s, fresh, command⟩
  have hadded {name : String} {protect : Bool} {material : Bytes} {after : KeyStore}
      (hadd : store.apply (.add { id := fresh.id, name, material, wrapped := protect }) = .ok after)
      (hsome : outcome.changed = some after) : ∃ e : StoredKey, e.id = fresh.id ∧ e.name = name ∧
        e.wrapped = protect ∧ e.revoked = false ∧
        (outcome.changed.getD store).keyring.entries = store.keyring.entries ++ [e] := by
    obtain ⟨keyring, hkeyring, rfl⟩ := KeyStore.apply_ok hadd
    rw [hsome]
    exact ⟨{ id := fresh.id, name, material, wrapped := protect }, rfl, rfl, rfl, rfl,
      entries_add hkeyring⟩
  cases command with
  | encrypt text key password base61 bare =>
    change (outcome.changed.getD store).keyring.entries = store.keyring.entries
    rw [Command.runEncrypt_changed hrun]
    rfl
  | decrypt delivered password =>
    rcases Command.runDecrypt_ok hrun with
      ⟨rfl, hnone⟩ | ⟨rfl, text, passphrase, htext, hpassphrase, hafter⟩
    · refine ⟨fun ⟨name, found, _, _, hcommand, _⟩ => ?_, fun _ => ?_⟩
      · cases hcommand
      · rw [hnone]
        rfl
    · rcases Command.afterOpening_ok hafter with ⟨name, hopened, hrevoke⟩ | ⟨hother, hnone⟩
      · refine ⟨fun _ => marksOne_of_revoke h hrevoke, fun hno => absurd ?_ hno⟩
        exact ⟨name, delivered, text, passphrase, rfl, htext, hpassphrase, hopened⟩
      · refine ⟨?_, fun _ => ?_⟩
        · rintro ⟨name, found, text', passphrase', hcommand, htext', hpassphrase', hopened⟩
          cases hcommand
          rw [htext] at htext'
          cases htext'
          rw [hpassphrase] at hpassphrase'
          cases hpassphrase'
          exact absurd hopened (hother name)
        · rw [hnone]
          rfl
  | keygen name protect =>
    obtain ⟨material, after, hadd, hsome⟩ := Command.runKeygen_ok hrun
    exact hadded hadd hsome
  | importKey name keyText protect =>
    obtain ⟨material, after, hadd, hsome⟩ := Command.runImport_ok hrun
    exact hadded hadd hsome
  | listKeys =>
    change (outcome.changed.getD store).keyring.entries = store.keyring.entries
    rw [Command.runList_changed hrun]
    rfl
  | revokeKey key =>
    obtain ⟨e, -, hrevoke⟩ := Command.runRevoke_ok hrun
    exact marksOne_of_revoke h hrevoke
  | deleteKey key =>
    obtain ⟨e, after, he, hdelete, hsome⟩ := Command.runDelete_ok hrun
    obtain ⟨keyring, hkeyring, rfl⟩ := KeyStore.apply_ok hdelete
    obtain ⟨before, rest, hentries, hafter⟩ := entries_delete h (Keyring.mem_of_lookup he) hkeyring
    rw [hsome]
    exact ⟨before, e, rest, he, hentries, hafter⟩
  | showSettings =>
    cases hrun
    rfl

/-- A flag that is set stays set. -/
theorem revoked_after (h : store.keyring.Distinct) {e x : StoredKey}
    (he : e ∈ store.keyring.entries) (hrevoked : e.revoked = true)
    (hx : x ∈ (store.after c).keyring.entries) (hid : x.id = e.id) : x.revoked = true := by
  rcases store.after_cases c with hsame | ⟨change, hchange, happly⟩
  · rw [hsame] at hx
    rw [h.eq_of_id he hx hid]
    exact hrevoked
  · obtain ⟨keyring, hkeyring, hafter⟩ := KeyStore.apply_ok happly
    rw [hafter] at hx
    rcases mem_of_apply hchange hkeyring hx with hx | ⟨y, -, rfl⟩ | ⟨-, hnew⟩
    · rw [h.eq_of_id he hx hid]
      exact hrevoked
    · rfl
    · exact absurd hid.symm (hnew e he)

theorem sealingKey_ok {k : Keyring} {key : Option String} {e : StoredKey}
    (h : k.sealingKey key = .ok e) : e ∈ k.entries ∧ e.revoked = false := by
  unfold Keyring.sealingKey at h
  split at h
  · obtain ⟨found, hfound, h⟩ := bind_eq_ok.1 h
    split_ifs at h with hrevoked
    cases h
    exact ⟨Keyring.mem_of_lookup (attempt_ok_iff.1 hfound), by simpa using hrevoked⟩
  · split at h
    · cases h
    · rename_i found hfilter
      cases h
      have hmem : e ∈ k.entries.filter (!·.revoked) := hfilter ▸ List.mem_singleton_self e
      simpa using List.mem_filter.1 hmem
    · cases h

/-- Sealing with a stored key takes a key without a flag, and prints what is sealed under it. -/
theorem exists_seals {text key : Option String} {base61 bare : Bool}
    (hcommand : c.command = .encrypt text key false base61 bare)
    (hrun : c.command.run c.situation c.fresh (.ok store) = .ok outcome) :
    ∃ e secret token, e ∈ store.keyring.entries ∧ e.revoked = false ∧
      c.Seals store e secret token ∧ outcome.output = token ++ "\n" := by
  rw [hcommand] at hrun
  unfold Command.run Command.runEncrypt at hrun
  obtain ⟨plain, hplain, hrun⟩ := bind_eq_ok.1 hrun
  obtain ⟨opened, hopened, hrun⟩ := bind_eq_ok.1 hrun
  cases hopened
  obtain ⟨e, he, hrun⟩ := bind_eq_ok.1 hrun
  obtain ⟨passphrase, hpassphrase, hrun⟩ := bind_eq_ok.1 hrun
  obtain ⟨keys, hkeys, hrun⟩ := bind_eq_ok.1 hrun
  obtain ⟨token, htoken, hrun⟩ := bind_eq_ok.1 hrun
  cases hrun
  unfold StoredKey.keyset at hkeys
  obtain ⟨secret, hsecret, hkeys⟩ := bind_eq_ok.1 hkeys
  obtain ⟨hmem, hrevoked⟩ := sealingKey_ok he
  refine ⟨e, secret, token, hmem, hrevoked, ?_, rfl⟩
  exact ⟨text, key, base61, bare, plain, passphrase, keys, hcommand, he, hpassphrase,
    attempt_ok_iff.1 hsecret, attempt_ok_iff.1 hkeys, hplain, attempt_ok_iff.1 htoken⟩

end CommandCall

/-- In every run of sessions on a key file without keys, the next session leaves all files as they
are if it is not done. If it is, it has run a command, and no file has changed but the key file that
its settings name. There the keys are as the command allows, no flag is cleared, and a text that was
sealed with a stored key was sealed with one that has no flag. -/
theorem commands_change (path : String) (files : Files)
    (hfiles : KeyStore.ofContent path (files path) = .ok (.withoutKeys path))
    (sessions : List SessionCall) (c : SessionCall) :
    ∃ store, KeyStore.ofContent path (files.afterAll sessions path) = .ok store ∧
      store.keyring.Distinct ∧
      ((∀ output, (c.run (files.afterAll sessions)).1 ≠ .done output) →
        (files.afterAll sessions).after c = files.afterAll sessions) ∧
      ∀ output, (c.run (files.afterAll sessions)).1 = .done output →
        ∃ call, c.call? (files.afterAll sessions) = some call ∧
          (∀ other, other ≠ call.storePath →
            (files.afterAll sessions).after c other = files.afterAll sessions other) ∧
          (call.storePath = path → ∃ after,
            KeyStore.ofContent path ((files.afterAll sessions).after c path) = .ok after ∧
            call.Changes store after.keyring.entries ∧
            (after.keyring.entries = store.keyring.entries →
              (files.afterAll sessions).after c = files.afterAll sessions) ∧
            (∀ e ∈ store.keyring.entries, e.revoked = true →
              ∀ x ∈ after.keyring.entries, x.id = e.id → x.revoked = true) ∧
            ∀ text key base61 bare, call.command = .encrypt text key false base61 bare →
              ∃ e ∈ store.keyring.entries, e.revoked = false ∧
                ∃ secret token, call.Seals store e secret token ∧ output = token ++ "\n") := by
  obtain ⟨calls, hstore⟩ := Files.ofContent_afterAll path sessions hfiles
  generalize files.afterAll sessions = before at hstore ⊢
  have hdistinct := KeyStore.distinct_afterAll calls (KeyStore.distinct_withoutKeys path)
  generalize (KeyStore.withoutKeys path).afterAll calls = store at hstore hdistinct ⊢
  refine ⟨store, hstore, hdistinct, Files.after_of_not_done, fun output hdone => ?_⟩
  obtain ⟨call, outcome, hcall, hresult, rfl, hafter⟩ := Files.exists_call hdone
  refine ⟨call, hcall, fun other hother => ?_, fun hpath => ?_⟩
  · refine Files.after_of_ne fun found hfound => ?_
    rw [hcall] at hfound
    cases hfound
    exact hother.symm
  · have hrun : call.command.run call.situation call.fresh (.ok store) = .ok outcome := by
      rw [← hresult, CommandCall.result, CommandCall.opened_ok_iff.2 (hpath ▸ hstore)]
    have hsaved : store.after call = outcome.changed.getD store := by rw [KeyStore.after, hrun]
    refine ⟨store.after call, Files.ofContent_after hstore hcall hpath, ?_, fun hsame => ?_,
      fun e he hrevoked x hx hid => CommandCall.revoked_after hdistinct he hrevoked hx hid, ?_⟩
    · rw [hsaved]
      exact CommandCall.changes_of_run hdistinct hrun
    · rw [hafter]
      rcases Command.changed_apply hrun with hnone | ⟨change, after, hchange, happly, hsome⟩
      · rw [hnone]
        rfl
      · obtain ⟨keyring, hkeyring, rfl⟩ := KeyStore.apply_ok happly
        rw [hsaved, hsome] at hsame
        exact absurd hsame (entries_ne_of_apply hdistinct hchange hkeyring)
    · intro text key base61 bare hcommand
      obtain ⟨e, secret, token, he, hrevoked, hseals, houtput⟩ :=
        CommandCall.exists_seals hcommand hrun
      exact ⟨e, he, hrevoked, secret, token, hseals, houtput⟩

/-- The first key of a user without any files. -/
theorem firstKey_stored :
    let files : Files := fun _ => none
    let c : SessionCall := {
      words := ["keygen", "-n", "alice"]
      fresh := ⟨List.replicate 32 1, "1", List.replicate 16 0, List.replicate 8 0⟩ }
    ∃ path e, KeyStore.ofContent path (files path) = .ok (.withoutKeys path) ∧
      KeyStore.ofContent path (files.after c path) = .ok ⟨path, ⟨[e]⟩⟩ ∧
      e.name = "alice" ∧ e.wrapped = false ∧ e.revoked = false := by
  intro files c
  let call : CommandCall :=
    ⟨{ settingsPath := Settings.defaultPath none }, c.fresh, .keygen "alice" false⟩
  have hwords : Command.Invocation.ofWords c.words = .ok ⟨call.command, none, none, none⟩ := by
    cbv
  have hasked : c.asked = .ok (call.command, Settings.defaultPath none) := by
    rw [SessionCall.asked, hwords]
    rfl
  have hcall : c.call? files = some call := by
    rw [SessionCall.call?, hasked]
    rfl
  obtain ⟨output, hrun⟩ : ∃ output, call.command.run call.situation call.fresh
      (.ok (.withoutKeys call.storePath)) = .ok ⟨output, some ⟨call.storePath, _⟩⟩ :=
    Command.exists_keygen rfl
  have hopened : call.opened files = .ok (.withoutKeys call.storePath) := rfl
  have hdone : (c.run files).1 = .done output := by
    rw [Files.run_of_call hcall, CommandCall.result, hopened, hrun]
    rfl
  obtain ⟨store, hstore, -, -, hchange⟩ := commands_change call.storePath files rfl [] c
  obtain ⟨found, hfound, -, hfile⟩ := hchange output hdone
  rw [show files.afterAll [] = files from rfl] at hstore hfound hfile
  rw [hcall] at hfound
  cases hfound
  obtain ⟨after, hafter, ⟨e, -, hname, hwrapped, hrevoked, hentries⟩, -⟩ := hfile rfl
  cases hstore
  have hpath : after.path = call.storePath := KeyStore.path_of_ofContent hafter
  rcases after with ⟨path, ⟨entries⟩⟩
  cases hpath
  cases hentries
  exact ⟨call.storePath, e, rfl, hafter, hname, hwrapped, hrevoked⟩

end SealedText
