import SealedText.Cipher.Chaining
import SealedText.Cipher.Mac
import SealedText.Key

/-!
# Envelopes

An envelope is an initialization vector and the chained encryption of a tag and a payload. There are two
forms, and nothing in an envelope tells which it is: the one who opens it has to know.

* The plain form uses a keyset: the text key encrypts, and the tag is the payload's under the auth key.
* The salted form uses one key for both. A salt stands in front of the payload, and the tag covers it.

Opening never says what was wrong with an envelope: too short, ragged, badly padded and wrongly tagged are
one failure. Only a key that does not fit the cipher at all is told apart.

Every function takes a fresh engine of the cipher to use; the vector and the salt are drawn by the caller.
-/

namespace SealedText

inductive EnvelopeError
  | refused
  /-- The key cannot be used with this cipher. -/
  | unusableKey (cause : CipherError)
  deriving DecidableEq, Repr

def EnvelopeError.message : EnvelopeError → String
  | refused => "decryption failed"
  | unusableKey cause => cause.message

namespace Envelope

/-- The length of a salt in bytes. -/
def saltLength : Nat := 8

/-- A key has to be as long as the cipher's keys are. -/
def checkLength (fresh : Engine) (key : SecretKey) : Except CipherError Unit :=
  if key.bytes.length ≠ fresh.keySize then .error (fresh.wrongKey key.bytes) else .ok ()

/-- The vector and the chained encryption of what goes inside. -/
def enclose (fresh : Engine) (key : SecretKey) (iv inner : Bytes) : Except CipherError Bytes := do
  let engine ← fresh.keyedWith .encrypting key.bytes
  return iv ++ (← engine.chainEncrypt iv inner)

/-- What is inside, if the envelope has a vector and at least one byte more and decrypts at all. -/
def disclose? (fresh : Engine) (key : SecretKey) (sealed : Bytes) : Option Bytes :=
  if sealed.length ≤ fresh.blockSize then none
  else
    match fresh.keyedWith .decrypting key.bytes with
    | .error _ => none
    | .ok engine =>
      (engine.chainDecrypt (sealed.take fresh.blockSize) (sealed.drop fresh.blockSize)).toOption

/-- What follows the tag, if the tag is that of it. -/
def authentic? (fresh : Engine) (key : SecretKey) (inner : Bytes) : Option Bytes :=
  match macOf fresh key.bytes (inner.drop tagSize) with
  | .error _ => none
  | .ok tag => if tagsEqual tag (inner.take tagSize) then some (inner.drop tagSize) else none

def encrypt (fresh : Engine) (keys : Keyset) (iv payload : Bytes) : Except CipherError Bytes := do
  checkLength fresh keys.text
  checkLength fresh keys.auth
  let tag ← macOf fresh keys.auth.bytes payload
  enclose fresh keys.text iv (tag ++ payload)

def decrypt (fresh : Engine) (keys : Keyset) (sealed : Bytes) : Except EnvelopeError Bytes := do
  (checkLength fresh keys.text).mapError .unusableKey
  (checkLength fresh keys.auth).mapError .unusableKey
  match disclose? fresh keys.text sealed with
  | none => throw .refused
  | some inner =>
    if inner.length < tagSize then throw .refused
    match authentic? fresh keys.auth inner with
    | none => throw .refused
    | some payload => return payload

namespace Salted

def encrypt (fresh : Engine) (key : SecretKey) (iv salt payload : Bytes) :
    Except CipherError Bytes := do
  checkLength fresh key
  let tag ← macOf fresh key.bytes (salt ++ payload)
  enclose fresh key iv (tag ++ (salt ++ payload))

def decrypt (fresh : Engine) (key : SecretKey) (sealed : Bytes) : Except EnvelopeError Bytes := do
  (checkLength fresh key).mapError .unusableKey
  match disclose? fresh key sealed with
  | none => throw .refused
  | some inner =>
    if inner.length < tagSize + saltLength then throw .refused
    match authentic? fresh key inner with
    | none => throw .refused
    | some salted => return salted.drop saltLength

end Salted

end Envelope

end SealedText
