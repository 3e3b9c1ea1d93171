import SealedText.Sealing

/-!
# Opening messages

A delivered text may be a link or a bare token, in either encoding. Each reading of it is tried with each
candidate key, and the first pair that authenticates decides: what that payload says is the answer, also if
it cannot be shown. When none does, the answer is the one failure, whatever the cause.
-/

namespace SealedText

inductive OpeningError
  /-- No reading is authentic under any key, or one is but says nothing. -/
  | noneFits
  /-- The message is authentic but asks for something that does not exist yet. -/
  | unsupported (feature : String)
  | unusableKey (cause : CipherError)
  deriving DecidableEq, Repr

def OpeningError.message : OpeningError → String
  | noneFits => "message could not be decrypted with any available key"
  | unsupported feature => s!"message uses an unsupported feature: {feature}"
  | unusableKey cause => cause.message

/-- An authentic message, with the name of the key that it was sealed under. -/
structure OpenedMessage where
  keyName : String
  message : Message
  deriving DecidableEq, Repr

/-- What to show the reader. -/
def OpenedMessage.toText (o : OpenedMessage) : String :=
  match o.message with
  | .text content => content
  | .revocation => s!"[key '{o.keyName}' has been revoked by its owner; stop using it]"

/-- The different byte strings that a delivered text can stand for. -/
def readings (linkStart delivered : String) : List Bytes :=
  let token := Link.unwrap linkStart delivered
  (TokenEncoding.all.filterMap fun e => (e.decode token).toOption).eraseDups

/-- The answer that an authentic payload gives. -/
def openedAs (keyName : String) (payload : Bytes) : Except OpeningError OpenedMessage :=
  match Payload.read payload with
  | .ok message => .ok ⟨keyName, message⟩
  | .error .reserved => .error (.unsupported keyReplacementFeature)
  | .error _ => .error .noneFits

/-- The answer that one attempt gives, if it settles the matter. -/
def settle (keyName : String) :
    Except EnvelopeError Bytes → Option (Except OpeningError OpenedMessage)
  | .ok payload => some (openedAs keyName payload)
  | .error .refused => none
  | .error (.unusableKey cause) => some (.error (.unusableKey cause))

/-- Open a delivered text with the first candidate that fits. -/
def openAmong (linkStart : String) (candidates : List (String × Keyset)) (delivered : String) :
    Except OpeningError OpenedMessage :=
  let attempts := (readings linkStart delivered).flatMap fun sealed =>
    candidates.map fun candidate => (sealed, candidate)
  (attempts.findSome? fun (sealed, keyName, keys) =>
    settle keyName (Envelope.decrypt .standard keys sealed)).getD (.error .noneFits)

/-- The name that a password goes by in an answer. -/
def passwordName : String := "password"

/-- Open a delivered text that was sealed under a single key, as a password makes it. -/
def openUnder (linkStart : String) (key : SecretKey) (delivered : String) :
    Except OpeningError OpenedMessage :=
  ((readings linkStart delivered).findSome? fun sealed =>
    settle passwordName (Envelope.Salted.decrypt .standard key sealed)).getD (.error .noneFits)

end SealedText
