import SealedText.Opening
import SealedText.Settings
import SealedText.KeyStore.Passphrase

/-!
# Failures of commands

A failure is a cause together with what the program was doing when it arose, outermost first. The report
gives the outermost line, then the others under it, indented and, if there are several, numbered.
-/

namespace SealedText

/-- What a command was doing. -/
inductive Activity
  | loadingSettings (path : String)
  | openingStore (path : String)
  | readingInput
  | readingPassword
  | unwrappingKey (name : String)
  | derivingKeyset (name : String)
  | sealingMessage
  | openingMessage
  | checksummingKey
  | readingKeyText
  | wrappingKey
  | savingKey
  | sealingNotice
  | markingRevoked
  | deletingKey
  deriving DecidableEq, Repr

def Activity.text : Activity → String
  | loadingSettings path => s!"loading config: {path}"
  | openingStore path => s!"opening key store: {path}"
  | readingInput => "reading stdin"
  | readingPassword => "reading password"
  | unwrappingKey name => s!"unsealing key '{name}'"
  | derivingKeyset name => s!"deriving keyset for '{name}'"
  | sealingMessage => "sealing message"
  | openingMessage => "opening message"
  | checksummingKey => "computing key checksum"
  | readingKeyText => "key text is not valid Base61"
  | wrappingKey => "sealing key material"
  | savingKey => "saving key"
  | sealingNotice => "sealing notice"
  | markingRevoked => "marking key revoked"
  | deletingKey => "deleting key"

inductive Cause
  | settings (e : SettingsError)
  | store (e : StoreError)
  | sealing (e : SealingError)
  | cipher (e : CipherError)
  | key (e : KeyError)
  | keyText (e : Base61.Defect)
  | opening (e : OpeningError)
  | inputNotUtf8
  /-- The variable of the environment that should hold the password is not set. -/
  | noPassword (name : String)
  | noKeys
  | noActiveKeys
  | severalActiveKeys
  | revokedKey (name : String)
  | noKeyUnwrapped
  | noKeyFits
  | wrongChecksum
  | emptyKeyText
  deriving DecidableEq, Repr

namespace Cause

def notUtf8 : String := "stream did not contain valid UTF-8"

/-- The lines of a report on a cause. A file that is no text has a cause of its own under it. -/
def lines : Cause → List String
  | settings .notUtf8 => [SettingsError.notUtf8.message, notUtf8]
  | settings e => [e.message]
  | store .notUtf8 => [StoreError.notUtf8.message, notUtf8]
  | store e => [e.message]
  | sealing e => [e.message]
  | cipher e => [e.message]
  | key e => [e.message]
  | keyText e => [e.message]
  | opening e => [e.message]
  | inputNotUtf8 => [notUtf8]
  | noPassword name => [s!"{name} is not set"]
  | noKeys => ["no keys stored; import one with `cryptext key import`"]
  | noActiveKeys => ["no active keys; create one with `cryptext keygen`"]
  | severalActiveKeys => ["several keys stored; choose one with --key"]
  | revokedKey name => [s!"key '{name}' is revoked"]
  | noKeyUnwrapped => ["none of the stored keys could be unsealed; check the store passphrase"]
  | noKeyFits => ["could not decrypt the message with any available key"]
  | wrongChecksum => ["key checksum mismatch; check the key text for typos"]
  | emptyKeyText => ["key text holds no key material"]

end Cause

structure Failure where
  activities : List Activity := []
  cause : Cause
  deriving DecidableEq, Repr

namespace Failure

def ofCause (cause : Cause) : Failure := { cause }

/-- The lines of a report, outermost first. -/
def lines (f : Failure) : List String := f.activities.map Activity.text ++ f.cause.lines

/-- Put a line under the outermost one, its own line breaks indented as far as its beginning. -/
def indent (first rest : String) (text : String) : String :=
  first ++ ("\n" ++ rest).intercalate (text.splitOn "\n")

/-- A number at the end of five columns. -/
def numberColumn (n : Nat) : String :=
  let digits := toString n
  String.ofList (List.replicate (5 - digits.length) ' ') ++ digits

/-- A report of the given lines, without its last line break. -/
def reportLines : List String → String
  | [] => ""
  | [outermost] => s!"Error: {outermost}"
  | [outermost, cause] => s!"Error: {outermost}\n\nCaused by:\n" ++ indent "    " "    " cause
  | outermost :: causes =>
    s!"Error: {outermost}\n\nCaused by:\n" ++ "\n".intercalate
      (causes.mapIdx fun n cause => indent (numberColumn n ++ ": ") "       " cause)

/-- What is shown of a failure. -/
def report (f : Failure) : String := reportLines f.lines ++ "\n"

end Failure

/-- Give the error of a computation its place among the causes and say what was going on. -/
def attempt {ε α : Type} (cause : ε → Cause) (activities : List Activity) (x : Except ε α) :
    Except Failure α :=
  x.mapError fun e => ⟨activities, cause e⟩

end SealedText
