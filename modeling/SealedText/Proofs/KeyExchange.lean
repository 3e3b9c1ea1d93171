import SealedText.Proofs.Base61Exact
import SealedText.Proofs.Checksums
import SealedText.Proofs.KeyFileDurable
import SealedText.Proofs.RevocationTarget
import SealedText.Proofs.WrappedSecrets

/-!
# A copied key is the same on both sides

The text of a new key is its secret with a checksum, in Base61 and in groups of five. However it is
spaced when it arrives, it is read as the same bytes and the checksum fits (`Checksum.read_copied`).
So who imports it stores the secret that was made, protected or not on either side, and both sides
draw the same keyset from it (`keys_exchanged`).
-/

namespace SealedText

/-! ## Copied texts -/

namespace Checksum

/-- The text of a secret gives it back, whatever is put in or left out that reading skips. -/
theorem read_copied {secret framed : Bytes} (h : attach secret = .ok framed) {width : Nat}
    {text : String} (hvisible : Base61.visible text =
      Base61.visible (Base61.spaced width (Base61.encode framed))) :
    Base61.decode text = .ok framed ∧ verify? framed = some secret := by
  refine ⟨Base61.decode_ok_iff.2 ?_, verify?_of_attach h⟩
  rw [hvisible, Base61.visible_spaced]
  exact Base61.decode_ok_iff.1 (Base61.decode_encode framed)

end Checksum

/-! ## New keys -/

/-- What is printed with the text of a new key. -/
def announcement (name keyText : String) : String :=
  s!"Key '{name}' created. Share this with the other party over a trusted channel:\n\n" ++
    keyText ++ "\n"

/-- Who stores a new key, with what the command finds and draws. -/
structure KeyHolder where
  store : KeyStore
  situation : Situation
  fresh : Fresh
  name : String
  protect : Bool

/-- A later command knows the passphrase that was used and stretches it as often. -/
def Situation.KnowsPassphrase (later s : Situation) : Prop :=
  later.environment.storePassphrase = s.environment.storePassphrase ∧
    later.settings.kdf.iterations = s.settings.kdf.iterations

theorem Situation.passphraseFor_of_wrapped {s : Situation} {p : String}
    (hp : s.environment.storePassphrase = some p) {entries : List StoredKey} {e : StoredKey}
    (he : e ∈ entries) (hwrapped : e.wrapped = true) :
    s.passphraseFor entries = .ok (some (.ofPassphrase p s.settings.kdf.iterations)) := by
  have hany : entries.any (·.wrapped) = true := List.any_eq_true.2 ⟨e, he, hwrapped⟩
  rw [passphraseFor, if_pos hany, passphraseKey, hp]
  rfl

theorem StoredKey.keyset_of_secret {e : StoredKey} {passphrase : Option PassphraseKey}
    {secret : Bytes} {keys : Keyset} (h : e.secret passphrase = .ok secret)
    (hkeys : Keyset.ofSecret secret = .ok keys) : e.keyset passphrase = .ok keys := by
  rw [keyset, h, attempt_ok, ok_bind, hkeys, attempt_ok]

theorem Command.secretOfKeyText_of_read {keyText : String} {framed secret : Bytes}
    (hread : Base61.decode keyText = .ok framed) (hverify : Checksum.verify? framed = some secret)
    (hne : secret ≠ []) : secretOfKeyText keyText = .ok secret := by
  have hsome : secret.isEmpty = false := List.isEmpty_eq_false_iff.2 hne
  rw [secretOfKeyText, hread, attempt_ok, ok_bind, hverify]
  simp only [hsome, Bool.false_eq_true, if_false]
  rfl

namespace KeyHolder

/-- A key can be stored: neither its id nor its name is in use, and there is a passphrase if it is
to be protected. -/
structure Ready (h : KeyHolder) : Prop where
  id : ∀ e ∈ h.store.keyring.entries, e.id ≠ h.fresh.id
  name : ∀ e ∈ h.store.keyring.entries, e.name ≠ h.name
  iv : h.fresh.iv.length = 16
  salt : h.fresh.salt.length = 8
  passphrase : h.protect = true → ∃ p, h.situation.environment.storePassphrase = some p

def run (h : KeyHolder) (c : Command) : Except Failure Outcome :=
  c.run h.situation h.fresh (.ok h.store)

/-- The store with one key more. -/
def storeWith (h : KeyHolder) (e : StoredKey) : KeyStore :=
  { h.store with keyring := ⟨h.store.keyring.entries ++ [e]⟩ }

/-- Later commands have the secret and the keyset of the new key, alone or among others. -/
structure Gains (h : KeyHolder) (e : StoredKey) (secret : Bytes) (keys : Keyset) : Prop where
  id : e.id = h.fresh.id
  name : e.name = h.name
  wrapped : e.wrapped = h.protect
  passphrase : ∀ later : Situation, (h.protect = true → later.KnowsPassphrase h.situation) →
    ∃ passphrase, later.passphraseFor [e] = .ok passphrase
  secret : ∀ later : Situation, (h.protect = true → later.KnowsPassphrase h.situation) →
    ∀ entries passphrase, e ∈ entries → later.passphraseFor entries = .ok passphrase →
      e.secret passphrase = .ok secret ∧ e.keyset passphrase = .ok keys

variable {h : KeyHolder} {secret : Bytes} {keys : Keyset}

theorem Ready.apply_add (hready : h.Ready) {e : StoredKey} (hid : e.id = h.fresh.id)
    (hname : e.name = h.name) : h.store.apply (.add e) = .ok (h.storeWith e) := by
  have hadd : h.store.keyring.add e = .ok ⟨h.store.keyring.entries ++ [e]⟩ :=
    Keyring.add_ok_iff.2 (.add (hid ▸ hready.id) (hname ▸ hready.name))
  rw [KeyStore.apply, Keyring.apply, hadd]
  rfl

theorem exists_addSecret_plain (hready : h.Ready) (hprotect : h.protect = false)
    (hkeys : Keyset.ofSecret secret = .ok keys) :
    ∃ e, h.store.addSecret h.situation h.fresh h.name secret h.protect = .ok (h.storeWith e) ∧
      h.Gains e secret keys := by
  let e : StoredKey := { id := h.fresh.id, name := h.name, material := secret }
  have hsecret (passphrase : Option PassphraseKey) : e.secret passphrase = .ok secret := rfl
  refine ⟨e, ?_, rfl, rfl, hprotect.symm, fun later _ => ⟨none, rfl⟩, ?_⟩
  · rw [KeyStore.addSecret, hprotect, if_neg Bool.false_ne_true]
    exact attempt_ok_iff.2 (hready.apply_add rfl rfl)
  · intro later _ entries passphrase _ _
    exact ⟨hsecret passphrase, StoredKey.keyset_of_secret (hsecret passphrase) hkeys⟩

theorem exists_addSecret_wrapped (hready : h.Ready) (hprotect : h.protect = true)
    (hkeys : Keyset.ofSecret secret = .ok keys) :
    ∃ e, h.store.addSecret h.situation h.fresh h.name secret h.protect = .ok (h.storeWith e) ∧
      h.Gains e secret keys := by
  obtain ⟨p, hp⟩ := hready.passphrase hprotect
  let k := PassphraseKey.ofPassphrase p h.situation.settings.kdf.iterations
  obtain ⟨wrapped, hwrap, hunwrap⟩ := PassphraseKey.exists_wrap
    (PassphraseKey.length_ofPassphrase p h.situation.settings.kdf.iterations) hready.iv hready.salt
    h.fresh.id secret
  let e : StoredKey := { id := h.fresh.id, name := h.name, material := wrapped, wrapped := true }
  have hpassphrase (later : Situation)
      (hlater : h.protect = true → later.KnowsPassphrase h.situation) {entries : List StoredKey}
      (he : e ∈ entries) : later.passphraseFor entries = .ok (some k) := by
    obtain ⟨hsame, hrounds⟩ := hlater hprotect
    rw [Situation.passphraseFor_of_wrapped (hsame.trans hp) he rfl, hrounds]
  have hsecret : e.secret (some k) = .ok secret := by
    rw [StoredKey.secret, if_pos rfl]
    exact hunwrap
  refine ⟨e, ?_, rfl, rfl, hprotect.symm, ?_, ?_⟩
  · have hkey : h.situation.passphraseKey = .ok k := by rw [Situation.passphraseKey, hp]
    rw [KeyStore.addSecret, hprotect]
    exact bind_eq_ok.2 ⟨k, hkey, bind_eq_ok.2 ⟨wrapped, attempt_ok_iff.2 hwrap,
      attempt_ok_iff.2 (hready.apply_add rfl rfl)⟩⟩
  · intro later hlater
    exact ⟨some k, hpassphrase later hlater List.mem_cons_self⟩
  · intro later hlater entries passphrase he hfound
    rw [hpassphrase later hlater he] at hfound
    cases hfound
    exact ⟨hsecret, StoredKey.keyset_of_secret hsecret hkeys⟩

theorem exists_addSecret (hready : h.Ready) (hkeys : Keyset.ofSecret secret = .ok keys) :
    ∃ e, h.store.addSecret h.situation h.fresh h.name secret h.protect = .ok (h.storeWith e) ∧
      h.Gains e secret keys := by
  rcases hprotect : h.protect with _ | _
  · rw [← hprotect]
    exact exists_addSecret_plain hready hprotect hkeys
  · rw [← hprotect]
    exact exists_addSecret_wrapped hready hprotect hkeys

theorem run_keygen (hready : h.Ready) {framed : Bytes}
    (hframed : Checksum.attach h.fresh.secret = .ok framed)
    (hkeys : Keyset.ofSecret h.fresh.secret = .ok keys) :
    ∃ e outcome, h.run (.keygen h.name h.protect) = .ok outcome ∧
      outcome.output = announcement h.name (Base61.spaced 5 (Base61.encode framed)) ∧
      outcome.changed = some (h.storeWith e) ∧ h.Gains e h.fresh.secret keys := by
  obtain ⟨e, hadd, hgains⟩ := exists_addSecret hready hkeys
  refine ⟨e, ⟨announcement h.name (Base61.spaced 5 (Base61.encode framed)),
    some (h.storeWith e)⟩, ?_, rfl, rfl, hgains⟩
  rw [run, Command.run, Command.runKeygen, ok_bind, hframed, attempt_ok, ok_bind, hadd, ok_bind]
  rfl

theorem run_importKey (hready : h.Ready) {framed : Bytes} {keyText : String}
    {given : Option String} (hgiven : h.situation.textOrInput given = .ok keyText)
    (hread : Base61.decode keyText = .ok framed) (hverify : Checksum.verify? framed = some secret)
    (hkeys : Keyset.ofSecret secret = .ok keys) :
    ∃ e outcome, h.run (.importKey h.name given h.protect) = .ok outcome ∧
      outcome.changed = some (h.storeWith e) ∧ h.Gains e secret keys := by
  obtain ⟨e, hadd, hgains⟩ := exists_addSecret hready hkeys
  have hne : secret ≠ [] := by
    rintro rfl
    cases hkeys
  refine ⟨e, ⟨s!"Key '{h.name}' imported.\n", some (h.storeWith e)⟩, ?_, rfl, hgains⟩
  rw [run, Command.run, Command.runImport, hgiven, ok_bind,
    Command.secretOfKeyText_of_read hread hverify hne, ok_bind, ok_bind, hadd, ok_bind]
  rfl

end KeyHolder

/-- Whoever imports the text of a new key has its secret and its keyset, under any name and with or
without a passphrase on either side. The text may arrive with more or less between its symbols, as
long as that is white space or control characters. Any secret in any spacing is read back. -/
theorem keys_exchanged :
    (∀ (secret : Bytes) (width : Nat), ∃ framed, Checksum.attach secret = .ok framed ∧
      Base61.decode (Base61.spaced width (Base61.encode framed)) = .ok framed ∧
      Checksum.verify? framed = some secret) ∧
    ∀ sender : KeyHolder, sender.Ready → sender.fresh.secret ≠ [] →
      ∃ framed keys, Checksum.attach sender.fresh.secret = .ok framed ∧
        Keyset.ofSecret sender.fresh.secret = .ok keys ∧
        (∃ e outcome, sender.run (.keygen sender.name sender.protect) = .ok outcome ∧
          outcome.output =
            announcement sender.name (Base61.spaced 5 (Base61.encode framed)) ∧
          outcome.changed = some (sender.storeWith e) ∧ sender.Gains e sender.fresh.secret keys) ∧
        ∀ receiver : KeyHolder, receiver.Ready → ∀ keyText,
          Base61.visible keyText =
            Base61.visible (Base61.spaced 5 (Base61.encode framed)) →
          ∀ given, receiver.situation.textOrInput given = .ok keyText →
            ∃ e outcome, receiver.run (.importKey receiver.name given receiver.protect) =
                .ok outcome ∧
              outcome.changed = some (receiver.storeWith e) ∧
              receiver.Gains e sender.fresh.secret keys := by
  refine ⟨fun secret width => ?_, fun sender hsender hsecret => ?_⟩
  · obtain ⟨framed, hframed⟩ := Checksum.exists_attach secret
    exact ⟨framed, hframed, Checksum.read_copied hframed rfl⟩
  · obtain ⟨framed, hframed⟩ := Checksum.exists_attach sender.fresh.secret
    obtain ⟨keys, hkeys⟩ := Keyset.exists_ofSecret hsecret
    refine ⟨framed, keys, hframed, hkeys, ?_, ?_⟩
    · exact KeyHolder.run_keygen hsender hframed hkeys
    · intro receiver hreceiver keyText hvisible given hgiven
      obtain ⟨hread, hverify⟩ := Checksum.read_copied hframed hvisible
      exact KeyHolder.run_importKey hreceiver hgiven hread hverify hkeys

/-- The key arrives on a line of its own, and the one who imports it protects it. -/
theorem copiedLine_imports :
    let sender : KeyHolder := ⟨.withoutKeys "sent.json", {},
      ⟨List.replicate 32 1, "1", List.replicate 16 0, List.replicate 8 0⟩, "bob", false⟩
    let receiver : KeyHolder := ⟨.withoutKeys "received.json",
      { environment := { storePassphrase := some "passphrase" } },
      ⟨List.replicate 32 2, "2", List.replicate 16 3, List.replicate 8 4⟩, "alice", true⟩
    ∃ framed keys, Checksum.attach sender.fresh.secret = .ok framed ∧
      ∃ e outcome, receiver.run (.importKey "alice"
          (some (Base61.spaced 5 (Base61.encode framed) ++ "\n")) true) = .ok outcome ∧
        outcome.changed = some (receiver.storeWith e) ∧
        receiver.Gains e sender.fresh.secret keys := by
  intro sender receiver
  have hsender : sender.Ready :=
    ⟨List.forall_mem_nil _, List.forall_mem_nil _, rfl, rfl, fun h => by cases h⟩
  have hreceiver : receiver.Ready :=
    ⟨List.forall_mem_nil _, List.forall_mem_nil _, rfl, rfl, fun _ => ⟨_, rfl⟩⟩
  obtain ⟨framed, keys, hframed, -, -, himport⟩ := keys_exchanged.2 sender hsender
    (List.cons_ne_nil 1 (List.replicate 31 1))
  have hbreak : Base61.visible "\n" = [] := by cbv
  have hvisible : Base61.visible (Base61.spaced 5 (Base61.encode framed) ++ "\n") =
      Base61.visible (Base61.spaced 5 (Base61.encode framed)) := by
    rw [Base61.visible_append, hbreak, List.append_nil]
  obtain ⟨e, outcome, hrun, hchanged, hgains⟩ := himport receiver hreceiver _ hvisible (some _) rfl
  exact ⟨framed, keys, hframed, e, outcome, hrun, hchanged, hgains⟩

end SealedText
