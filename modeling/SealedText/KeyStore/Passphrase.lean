import SealedText.Cipher.Standard
import SealedText.Envelope
import SealedText.KeyStore.Keyring

/-!
# Keys under a passphrase

The material of a stored key can be kept under a passphrase: it is then a salted envelope over the id of
the key, a zero byte and the secret. The id ties the envelope to its entry, so material that was copied to
another entry does not open there.
-/

namespace SealedText

inductive SealingError
  /-- The key with this name is wrapped and there is no passphrase. -/
  | noPassphrase (name : String)
  | wrongPassphrase
  /-- The material was wrapped for another key than the one with this id. -/
  | otherKey (id : String)
  | cipher (cause : CipherError)
  deriving DecidableEq, Repr

def SealingError.message : SealingError → String
  | noPassphrase name => s!"key sealing error: key '{name}' is sealed and no sealer is available"
  | wrongPassphrase => "key sealing error: wrong passphrase or corrupted key material"
  | otherKey id => s!"key sealing error: sealed material does not belong to key {id}"
  | cipher cause => s!"key sealing error: {cause.message}"

/-- The key that wraps and unwraps material. -/
structure PassphraseKey where
  key : SecretKey

namespace PassphraseKey

def ofPassphrase (passphrase : String) (iterations : Nat) : PassphraseKey :=
  ⟨Stretch.key ⟨.perStage, iterations⟩ passphrase⟩

/-- What stands in front of the secret of the key with an id. -/
def binding (id : String) : Bytes := id.toUTF8.data.toList ++ [0]

def wrap (k : PassphraseKey) (id : String) (iv salt secret : Bytes) : Except SealingError Bytes :=
  (Envelope.Salted.encrypt .standard k.key iv salt (binding id ++ secret)).mapError .cipher

/-- The rest of a list that starts with another. -/
def stripStart? (start : Bytes) (bytes : Bytes) : Option Bytes :=
  if start.isPrefixOf bytes then some (bytes.drop start.length) else none

def unwrap (k : PassphraseKey) (id : String) (wrapped : Bytes) : Except SealingError Bytes :=
  match Envelope.Salted.decrypt .standard k.key wrapped with
  | .error .refused => .error .wrongPassphrase
  | .error (.unusableKey cause) => .error (.cipher cause)
  | .ok framed =>
    match stripStart? (binding id) framed with
    | some secret => .ok secret
    | none => .error (.otherKey id)

end PassphraseKey

/-- The secret of a key, unwrapped if need be. -/
def StoredKey.secret (e : StoredKey) (passphrase : Option PassphraseKey) :
    Except SealingError Bytes :=
  if e.wrapped then
    match passphrase with
    | none => .error (.noPassphrase e.name)
    | some k => k.unwrap e.id e.material
  else .ok e.material

end SealedText
