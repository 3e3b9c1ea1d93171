import SealedText.Key
import SealedText.Sealing
import SealedText.Text.Utf8
import SealedText.Toml.Reader

/-!
# Settings

What the user can set, in four sections of a TOML file. Every entry has a default, so a missing file, section
or entry is no error; entries that are not known are passed over, but a known one has to have its type. A
section may also be written as an array with its entries in order.

After reading, the values are checked: enough rounds for a password, a link start that can be found again in
a text whose white space is dropped, and a level that exists.
-/

namespace SealedText

structure LogSettings where
  level : String := "warn"
  format : String := "text"
  deriving DecidableEq, Repr

structure KdfSettings where
  iterations : Nat := fewestIterations
  stretchMode : StretchMode := .perStage
  deriving DecidableEq, Repr

structure TransportSettings where
  encoding : TokenEncoding := .base64url
  wrapped : Bool := true
  linkStart : String := Link.defaultStart
  level : Nat := Payload.defaultLevel
  deriving DecidableEq, Repr

structure StoreSettings where
  /-- The key file, if it is not in the usual place. -/
  path : Option String := none
  deriving DecidableEq, Repr

structure Settings where
  log : LogSettings := {}
  kdf : KdfSettings := {}
  transport : TransportSettings := {}
  store : StoreSettings := {}
  deriving DecidableEq, Repr

inductive SettingsError
  | notUtf8
  /-- The file is not TOML, or an entry has the wrong type. -/
  | malformed (path : String)
  | tooFewIterations (iterations : Nat)
  | emptyLinkStart
  | blankInLinkStart (linkStart : String)
  | levelTooHigh (level : Nat)
  deriving DecidableEq, Repr

/-- What stands in front of the details about a file that cannot be read as settings. -/
def SettingsError.malformedIntro (path : String) : String := s!"config error: {path}: "

def SettingsError.message : SettingsError → String
  | notUtf8 => "I/O error: stream did not contain valid UTF-8"
  | malformed path => malformedIntro path ++ "not settings in TOML"
  | tooFewIterations iterations =>
    s!"config error: kdf.iterations must be at least {fewestIterations}, got {iterations}"
  | emptyLinkStart => "config error: transport.url_prefix must not be empty"
  | blankInLinkStart linkStart =>
    s!"config error: transport.url_prefix must not contain whitespace: {quotedText linkStart}"
  | levelTooHigh level => s!"config error: transport.compression_level must be 0-9, got {level}"

namespace StretchMode

def all : List StretchMode := [perStage, whole]

def label : StretchMode → String
  | perStage => "cascade"
  | whole => "single"

end StretchMode

def TokenEncoding.label : TokenEncoding → String
  | base64url => "base64url"
  | base61 => "base61"

namespace Settings

/-! ## Reading -/

/-- The entries of a section, in the order of their names. A date is a section without known entries. -/
def section? (names : List String) : Toml → Option (List (Option Toml))
  | .table _ es => some (names.map (Toml.Entries.get? es))
  | .array items => some (names.zipIdx.map fun n => items[n.2]?)
  | .tables elements =>
    some (names.zipIdx.map fun n => (elements[n.2]?).map (.table .header ·))
  | .date => some (names.map fun _ => none)
  | _ => none

/-- Read an entry if it is there. -/
def orDefault {α : Type} (other : α) (read : Toml → Option α) : Option Toml → Option α
  | none => some other
  | some t => read t

def text? : Toml → Option String
  | .text content => some content
  | _ => none

def flag? : Toml → Option Bool
  | .boolean b => some b
  | _ => none

/-- A number of at most 32 bits. -/
def count? : Toml → Option Nat
  | .integer n => if 0 ≤ n ∧ n < 0x100000000 then some n.toNat else none
  | _ => none

def isEmpty : Toml → Bool
  | .array [] => true
  | .table _ [] => true
  | _ => false

/-- The name of a choice: a text, or the only key of a table with nothing in it. -/
def choice? : Toml → Option String
  | .text content => some content
  | .table _ [(key, value)] => if isEmpty value then some key else none
  | _ => none

def mode? (t : Toml) : Option StretchMode := do
  let name ← choice? t
  StretchMode.all.find? (·.label == name)

def encoding? (t : Toml) : Option TokenEncoding := do
  let name ← choice? t
  TokenEncoding.all.find? (·.label == name)

def log? (t : Toml) : Option LogSettings := do
  match ← section? ["level", "format"] t with
  | [level, format] =>
    return {
      level := ← orDefault "warn" text? level
      format := ← orDefault "text" text? format }
  | _ => none

def kdf? (t : Toml) : Option KdfSettings := do
  match ← section? ["iterations", "password_mode"] t with
  | [iterations, mode] =>
    return {
      iterations := ← orDefault fewestIterations count? iterations
      stretchMode := ← orDefault .perStage mode? mode }
  | _ => none

def transport? (t : Toml) : Option TransportSettings := do
  match ← section? ["encoding", "wrap_url", "url_prefix", "compression_level"] t with
  | [encoding, wrapped, linkStart, level] =>
    return {
      encoding := ← orDefault .base64url encoding? encoding
      wrapped := ← orDefault true flag? wrapped
      linkStart := ← orDefault Link.defaultStart text? linkStart
      level := ← orDefault Payload.defaultLevel count? level }
  | _ => none

def store? (t : Toml) : Option StoreSettings := do
  match ← section? ["path"] t with
  | [path] => return { path := ← orDefault none (fun t => (text? t).map some) path }
  | _ => none

def ofToml? (es : Toml.Entries) : Option Settings := do
  return {
    log := ← orDefault {} log? (es.get? "log")
    kdf := ← orDefault {} kdf? (es.get? "kdf")
    transport := ← orDefault {} transport? (es.get? "transport")
    store := ← orDefault {} store? (es.get? "store") }

/-! ## Checking -/

def check (s : Settings) : Except SettingsError Unit :=
  if s.kdf.iterations < fewestIterations then .error (.tooFewIterations s.kdf.iterations)
  else if s.transport.linkStart.isEmpty then .error .emptyLinkStart
  else if s.transport.linkStart.toList.any isBlank then
    .error (.blankInLinkStart s.transport.linkStart)
  else if s.transport.level > Payload.maxLevel then .error (.levelTooHigh s.transport.level)
  else .ok ()

/-- The settings in a file with the given content. -/
def ofContent (path : String) : Option ByteArray → Except SettingsError Settings
  | none => .ok {}
  | some content =>
    match Utf8.decode content with
    | .error _ => .error .notUtf8
    | .ok text =>
      match (Toml.ofText? text).bind ofToml? with
      | none => .error (.malformed path)
      | some s => do
        s.check
        return s

/-! ## Writing -/

def line (key : String) (value : List Char) : List Char :=
  key.toList ++ " = ".toList ++ value ++ ['\n']

def textLine (key value : String) : List Char := line key (Toml.quoteText value.toList)

def flagText (b : Bool) : List Char := if b then "true".toList else "false".toList

def numberText (n : Nat) : List Char := Nat.toDigits 10 n

def toChars (s : Settings) : List Char :=
  "[log]\n".toList ++ textLine "level" s.log.level ++ textLine "format" s.log.format ++
  "\n[kdf]\n".toList ++ line "iterations" (numberText s.kdf.iterations) ++
  textLine "password_mode" s.kdf.stretchMode.label ++
  "\n[transport]\n".toList ++ textLine "encoding" s.transport.encoding.label ++
  line "wrap_url" (flagText s.transport.wrapped) ++
  textLine "url_prefix" s.transport.linkStart ++
  line "compression_level" (numberText s.transport.level) ++
  "\n[store]\n".toList ++ (s.store.path.elim [] (textLine "path" ·))

/-- The settings as the text of a file that would set them. -/
def toText (s : Settings) : String := String.ofList s.toChars

/-! ## Use -/

/-- A path inside a directory. A path from the root stays as it is, and so does one inside no directory. -/
def joinPath (directory path : String) : String :=
  if path.startsWith "/" || directory.isEmpty then path
  else if directory.endsWith "/" then directory ++ path
  else directory ++ "/" ++ path

/-- The directory of the program's own files, in the user's home directory if that is known. -/
def ownDirectory (home : Option String) : String :=
  joinPath (joinPath (home.getD "") ".config") "cryptext"

def defaultPath (home : Option String) : String := joinPath (ownDirectory home) "config.toml"

/-- Where the key file is. -/
def storePath (s : Settings) (home : Option String) : String :=
  s.store.path.getD (joinPath (ownDirectory home) "keys.json")

def stretch (s : Settings) : Stretch := ⟨s.kdf.stretchMode, s.kdf.iterations⟩

end Settings

end SealedText
