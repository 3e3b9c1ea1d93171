import SealedText.Hash.Hmac

/-!
# Keys

A cascade key is the keys of the three stages one after another. A shared secret expands into a keyset,
two independent cascade keys for secrecy and for tags. A password becomes a single cascade key, by one
stretch as long as the whole key or by one per stage, each under a salt of its own.
-/

namespace SealedText

/-- The key of one stage, in bytes. -/
def stageKeySize : Nat := 32

def fullKeySize : Nat := 3 * stageKeySize

/-- A new shared secret, in bytes. -/
def newSecretSize : Nat := 32

structure SecretKey where
  bytes : Bytes
  deriving DecidableEq

/-- What may be shown of a key: its length. -/
def SecretKey.redacted (k : SecretKey) : String :=
  s!"SecretKey \x7b len: {k.bytes.length}, bytes: \"[REDACTED]\" \x7d"

/-- Independent keys for the text and for its tag. -/
structure Keyset where
  text : SecretKey
  auth : SecretKey
  deriving DecidableEq

def Keyset.redacted (k : Keyset) : String :=
  s!"Keyset \x7b text: {k.text.redacted}, auth: {k.auth.redacted} \x7d"

/-- A keyset cannot be drawn from an empty secret. -/
inductive KeyError
  | emptySecret
  deriving DecidableEq, Repr

def KeyError.message : KeyError → String
  | emptySecret => "key derivation: empty secret"

def Keyset.ofSecret (secret : Bytes) : Except KeyError Keyset :=
  if secret.isEmpty then .error .emptySecret
  else
    let key := Hkdf.extract secret
    let part (purpose : String) : SecretKey :=
      ⟨Hkdf.expand key purpose.toUTF8.toList fullKeySize⟩
    .ok ⟨part "cryptext/text-key", part "cryptext/auth-key"⟩

theorem Keyset.exists_ofSecret {secret : Bytes} (h : secret ≠ []) :
    ∃ keys, ofSecret secret = .ok keys := by
  rw [ofSecret, if_neg (by rwa [List.isEmpty_iff])]
  exact ⟨_, rfl⟩

theorem Keyset.length_ofSecret {secret : Bytes} {keys : Keyset} (h : ofSecret secret = .ok keys) :
    keys.text.bytes.length = fullKeySize ∧ keys.auth.bytes.length = fullKeySize := by
  unfold ofSecret at h
  split at h
  · cases h
  · cases h
    exact ⟨Hkdf.length_expand _ _ _, Hkdf.length_expand _ _ _⟩

/-- How a password becomes a cascade key. -/
inductive StretchMode
  /-- One stretch, as long as the whole key. -/
  | whole
  /-- One stretch for each stage. -/
  | perStage
  deriving DecidableEq, Repr

/-- Fewer rounds than this leave a password open to guessing. -/
def fewestIterations : Nat := 100000

structure Stretch where
  mode : StretchMode := .perStage
  iterations : Nat := fewestIterations

def wholeKeySalt : String := "cryptext/password-key/v1"

/-- The salts of the stages, in stage order. -/
def stageSalts : List String :=
  ["cryptext/cascade/aes", "cryptext/cascade/twofish", "cryptext/cascade/serpent"]

namespace SecretKey

/-- A key of any length from a password, in one stretch. -/
def ofPassword (password : String) (iterations length : Nat) : SecretKey :=
  ⟨Pbkdf2.derive password.toUTF8.toList wholeKeySalt.toUTF8.toList iterations length⟩

/-- A cascade key from a password, in one stretch per stage. -/
def ofPasswordPerStage (password : String) (iterations : Nat) : SecretKey :=
  ⟨stageSalts.flatMap fun salt =>
    Pbkdf2.derive password.toUTF8.toList salt.toUTF8.toList iterations stageKeySize⟩

end SecretKey

/-- The cascade key of a password. -/
def Stretch.key (params : Stretch) (password : String) : SecretKey :=
  match params.mode with
  | .whole => .ofPassword password params.iterations fullKeySize
  | .perStage => .ofPasswordPerStage password params.iterations

theorem Stretch.length_key (params : Stretch) (password : String) :
    (params.key password).bytes.length = fullKeySize := by
  rw [key]
  cases params.mode with
  | whole => simp only [SecretKey.ofPassword, Pbkdf2.length_derive]
  | perStage =>
    simp only [SecretKey.ofPasswordPerStage, List.length_flatMap, Pbkdf2.length_derive]
    rfl

end SealedText
