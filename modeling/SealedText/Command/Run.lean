import SealedText.Base61
import SealedText.Checksum
import SealedText.Command.Basic
import SealedText.Command.Failure
import SealedText.Entropy
import SealedText.KeyStore.File

/-!
# Running commands

A command is a function of its situation, of fresh random values and of the open key file. Its outcome is
what to print and, if the keys changed, the key file to write back; a failure changes nothing.
-/

namespace SealedText

/-- The variables of the environment that matter. -/
structure Environment where
  home : Option String := none
  settingsPath : Option String := none
  password : Option String := none
  storePassphrase : Option String := none
  deriving DecidableEq, Repr

/-- What a command finds around it. -/
structure Situation where
  settings : Settings := {}
  settingsPath : String := ""
  /-- Whether there is a settings file. -/
  settingsFound : Bool := false
  environment : Environment := {}
  /-- The standard input. -/
  input : ByteArray := .empty

/-- Random values, drawn for one command. -/
structure Fresh where
  secret : Bytes
  id : String
  iv : Bytes
  salt : Bytes
  deriving DecidableEq, Repr

def Fresh.draw (e : Entropy) : Fresh × Entropy :=
  let (secret, e) := e.draw newSecretSize
  let (id, e) := e.draw 16
  let (iv, e) := e.draw Engine.standard.blockSize
  let (salt, e) := e.draw Envelope.saltLength
  (⟨secret, uuidOfBytes id, iv, salt⟩, e)

/-- What a command leaves behind when it succeeds. -/
structure Outcome where
  output : String
  /-- The key file, if its keys changed. -/
  changed : Option KeyStore := none

namespace Situation

/-- A text that was given, or the standard input. -/
def textOrInput (s : Situation) : Option String → Except Failure String
  | some given => .ok given
  | none => attempt (fun _ => .inputNotUtf8) [.readingInput] (Utf8.decode s.input)

/-- The key that the password of a message makes. A command runs without a terminal here: the
question for a password that is asked there is left out, and a variable that is not set is a
failure. -/
def passwordKey (s : Situation) : Except Failure SecretKey :=
  match s.environment.password with
  | some password => .ok (s.settings.stretch.key password)
  | none => .error ⟨[.readingPassword], .noPassword "CRYPTEXT_PASSWORD"⟩

/-- The key that the passphrase of the key file makes. As for a password, nobody is asked for it. -/
def passphraseKey (s : Situation) : Except Failure PassphraseKey :=
  match s.environment.storePassphrase with
  | some passphrase => .ok (.ofPassphrase passphrase s.settings.kdf.iterations)
  | none => .error ⟨[.readingPassword], .noPassword "CRYPTEXT_STORE_PASSPHRASE"⟩

/-- The same, if one of the given keys needs it. -/
def passphraseFor (s : Situation) (entries : List StoredKey) :
    Except Failure (Option PassphraseKey) :=
  if entries.any (·.wrapped) then return some (← s.passphraseKey) else return none

def style (s : Situation) (base61 bare : Bool) : MessageStyle where
  encoding := if base61 then .base61 else s.settings.transport.encoding
  wrapped := s.settings.transport.wrapped && !bare
  linkStart := s.settings.transport.linkStart
  level := s.settings.transport.level

end Situation

namespace StoredKey

def keyset (e : StoredKey) (passphrase : Option PassphraseKey) : Except Failure Keyset := do
  let secret ← attempt .sealing [.unwrappingKey e.name] (e.secret passphrase)
  attempt .key [.derivingKeyset e.name] (Keyset.ofSecret secret)

/-- The name and the keyset of a key, if its secret can be had. -/
def candidate? (passphrase : Option PassphraseKey) (e : StoredKey) : Option (String × Keyset) :=
  match e.keyset passphrase with
  | .ok keys => some (e.name, keys)
  | .error _ => none

/-- A line about a key: its name in 24 columns, its id and its marks. -/
def listing (e : StoredKey) : String :=
  let marks := (if e.revoked then ["revoked"] else []) ++ (if e.wrapped then ["sealed"] else [])
  e.name ++ String.ofList (List.replicate (24 - e.name.length) ' ') ++
    " " ++ e.id ++ "  " ++ ",".intercalate marks ++ "\n"

end StoredKey

namespace Keyring

/-- The key to seal with: the one that is asked for, or the only one that is not revoked. -/
def sealingKey (k : Keyring) : Option String → Except Failure StoredKey
  | some key => do
    let e ← attempt .store [] (k.lookup key)
    if e.revoked then .error (.ofCause (.revokedKey e.name)) else .ok e
  | none =>
    match k.entries.filter (!·.revoked) with
    | [] => .error (.ofCause .noActiveKeys)
    | [e] => .ok e
    | _ => .error (.ofCause .severalActiveKeys)

end Keyring

namespace KeyStore

/-- Mark the key with an id or a name as revoked. Nothing changes if it already is. -/
def revoke (store : KeyStore) (key : String) : Except Failure (Option KeyStore) := do
  let e ← attempt .store [] (store.keyring.lookup key)
  if e.revoked then return none
  return some (← attempt .store [.markingRevoked] (store.apply (.update { e with revoked := true })))

/-- Store a new key, under the passphrase if it is to be protected. -/
def addSecret (store : KeyStore) (s : Situation) (fresh : Fresh) (name : String)
    (secret : Bytes) (protect : Bool) : Except Failure KeyStore := do
  let material ←
    if protect then do
      let passphrase ← s.passphraseKey
      attempt .sealing [.wrappingKey] (passphrase.wrap fresh.id fresh.iv fresh.salt secret)
    else pure secret
  attempt .store [.savingKey]
    (store.apply (.add { id := fresh.id, name, material, wrapped := protect }))

end KeyStore

namespace Command

def runEncrypt (s : Situation) (fresh : Fresh) (stored : Except Failure KeyStore)
    (text key : Option String) (password base61 bare : Bool) : Except Failure Outcome := do
  let text ← s.textOrInput text
  let style := s.style base61 bare
  if password then
    let key ← s.passwordKey
    let token ← attempt .cipher [.sealingMessage]
      (key.seal style fresh.iv fresh.salt (.text text))
    return { output := token ++ "\n" }
  else
    let store ← stored
    let e ← store.keyring.sealingKey key
    let keys ← e.keyset (← s.passphraseFor [e])
    let token ← attempt .cipher [.sealingMessage] (keys.seal style fresh.iv (.text text))
    return { output := token ++ "\n" }

/-- What to print about a message, or why it cannot be opened. -/
def shown : Except OpeningError OpenedMessage → Except Failure String
  | .ok opened => .ok (opened.toText ++ "\n")
  | .error .noneFits => .error (.ofCause .noKeyFits)
  | .error e => .error ⟨[.openingMessage], .opening e⟩

/-- The key file after a message was opened: a notice marks the key that it was sealed under. -/
def afterOpening (store : KeyStore) :
    Except OpeningError OpenedMessage → Except Failure (Option KeyStore)
  | .ok ⟨keyName, .revocation⟩ => store.revoke keyName
  | _ => .ok none

def runDecrypt (s : Situation) (stored : Except Failure KeyStore) (delivered : Option String)
    (password : Bool) : Except Failure Outcome := do
  let delivered ← s.textOrInput delivered
  let linkStart := s.settings.transport.linkStart
  if password then
    return { output := ← shown (openUnder linkStart (← s.passwordKey) delivered) }
  else
    let store ← stored
    let entries := store.keyring.entries
    if entries.isEmpty then throw (.ofCause .noKeys)
    let candidates := entries.filterMap (StoredKey.candidate? (← s.passphraseFor entries))
    if candidates.isEmpty then throw (.ofCause .noKeyUnwrapped)
    let opened := openAmong linkStart candidates delivered
    let changed ← afterOpening store opened
    return { output := ← shown opened, changed }

/-- How many symbols of a key stand together when it is shown. -/
def symbolsTogether : Nat := 5

def runKeygen (s : Situation) (fresh : Fresh) (stored : Except Failure KeyStore) (name : String)
    (protect : Bool) : Except Failure Outcome := do
  let store ← stored
  let framed ← attempt .cipher [.checksummingKey] (Checksum.attach fresh.secret)
  let store ← store.addSecret s fresh name fresh.secret protect
  let keyText := Base61.spaced symbolsTogether (Base61.encode framed)
  return {
    output :=
      s!"Key '{name}' created. Share this with the other party over a trusted channel:\n\n" ++
        keyText ++ "\n"
    changed := some store }

/-- The secret in a key text. -/
def secretOfKeyText (keyText : String) : Except Failure Bytes := do
  let framed ← attempt .keyText [.readingKeyText] (Base61.decode keyText)
  match Checksum.verify? framed with
  | none => throw (.ofCause .wrongChecksum)
  | some secret => if secret.isEmpty then throw (.ofCause .emptyKeyText) else return secret

def runImport (s : Situation) (fresh : Fresh) (stored : Except Failure KeyStore) (name : String)
    (keyText : Option String) (protect : Bool) : Except Failure Outcome := do
  let secret ← secretOfKeyText (← s.textOrInput keyText)
  let store ← stored
  let store ← store.addSecret s fresh name secret protect
  return { output := s!"Key '{name}' imported.\n", changed := some store }

def runList (stored : Except Failure KeyStore) : Except Failure Outcome := do
  let store ← stored
  if store.keyring.entries.isEmpty then return { output := s!"No keys in {store.path}\n" }
  return { output := String.join (store.keyring.entries.map StoredKey.listing) }

def runRevoke (s : Situation) (fresh : Fresh) (stored : Except Failure KeyStore) (key : String) :
    Except Failure Outcome := do
  let store ← stored
  let e ← attempt .store [] (store.keyring.lookup key)
  let keys ← e.keyset (← s.passphraseFor [e])
  let notice ← attempt .cipher [.sealingNotice]
    (keys.seal (s.style false false) fresh.iv .revocation)
  let changed ← store.revoke e.name
  return {
    output := s!"Key '{e.name}' revoked. Send this notice to the other party:\n\n" ++ notice ++ "\n"
    changed }

def runDelete (stored : Except Failure KeyStore) (key : String) : Except Failure Outcome := do
  let store ← stored
  let e ← attempt .store [] (store.keyring.lookup key)
  let store ← attempt .store [.deletingKey] (store.apply (.delete e.id))
  return { output := s!"Key '{key}' deleted.\n", changed := some store }

def runShowSettings (s : Situation) : Outcome :=
  let origin :=
    if s.settingsFound then s!"# Configuration from: {s.settingsPath}\n"
    else s!"# Configuration: defaults (no file at {s.settingsPath})\n"
  { output := origin ++ "\n" ++ s.settings.toText }

/-- Run a command on a key file that opens as `stored` says. -/
def run (s : Situation) (fresh : Fresh) (stored : Except Failure KeyStore) :
    Command → Except Failure Outcome
  | encrypt text key password base61 bare => runEncrypt s fresh stored text key password base61 bare
  | decrypt delivered password => runDecrypt s stored delivered password
  | keygen name protect => runKeygen s fresh stored name protect
  | importKey name keyText protect => runImport s fresh stored name keyText protect
  | listKeys => runList stored
  | revokeKey key => runRevoke s fresh stored key
  | deleteKey key => runDelete stored key
  | showSettings => .ok (runShowSettings s)

end Command

end SealedText
