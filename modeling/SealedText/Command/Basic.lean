import SealedText.Command.Words

/-!
# Commands

What the program can be asked to do, and the command lines that ask for it. Messages and key texts that are
left out are read from the standard input.
-/

namespace SealedText

inductive Command
  /-- Seal a text with a stored key, or with a password. -/
  | encrypt (text key : Option String) (password base61 bare : Bool)
  /-- Open a text with any stored key, or with a password. -/
  | decrypt (delivered : Option String) (password : Bool)
  /-- Make a new key and show it. -/
  | keygen (name : String) (protect : Bool)
  /-- Store a key that somebody else made. -/
  | importKey (name : String) (keyText : Option String) (protect : Bool)
  | listKeys
  /-- Give a key up and make the notice that says so. -/
  | revokeKey (key : String)
  | deleteKey (key : String)
  | showSettings
  deriving DecidableEq, Repr

namespace Command

/-- Whether a command reads the standard input. -/
def readsInput : Command → Bool
  | encrypt text _ _ _ _ => text.isNone
  | decrypt delivered _ => delivered.isNone
  | importKey _ keyText _ => keyText.isNone
  | _ => false

/-- Whether a command opens the key file. -/
def opensStore : Command → Bool
  | encrypt _ _ password _ _ => !password
  | decrypt _ password => !password
  | showSettings => false
  | _ => true

/-- A command with the options in front of it. -/
structure Invocation where
  command : Command
  /-- The settings file, if not the usual one. -/
  settingsPath : Option String := none
  logLevel : Option String := none
  /-- One of `json` and `text`. -/
  logStyle : Option String := none
  deriving DecidableEq, Repr

/-! ## Command lines -/

def helpSwitch : Switch := { name := "help", letter := some 'h', takes := .stop .help }

/-- A command that takes up to `room` words besides its options. -/
def grammar (room : Nat) (switches : List Switch) : Grammar := ⟨switches ++ [helpSwitch], some room⟩

/-- A group of commands. -/
def groupGrammar (switches : List Switch) : Grammar := ⟨switches ++ [helpSwitch], none⟩

def programGrammar : Grammar :=
  groupGrammar [{ name := "config", letter := some 'c', takes := .nonEmptyText },
    { name := "log", takes := .text },
    { name := "log-format", takes := .oneOf ["json", "text"] },
    { name := "version", letter := some 'V', takes := .stop .version }]

def encryptGrammar : Grammar :=
  grammar 1 [{ name := "key", letter := some 'k', takes := .text },
    { name := "password", letter := some 'p' }, { name := "base61" }, { name := "no-url" }]

def decryptGrammar : Grammar := grammar 1 [{ name := "password", letter := some 'p' }]

def nameSwitches : List Switch :=
  [{ name := "name", letter := some 'n', takes := .text }, { name := "protect" }]

def keygenGrammar : Grammar := grammar 0 nameSwitches

def importGrammar : Grammar := grammar 1 nameSwitches

/-- What `help` can be asked about. -/
def helpTopics : List (List String) :=
  [[], ["encrypt"], ["decrypt"], ["keygen"], ["key"], ["config"], ["help"],
    ["key", "import"], ["key", "list"], ["key", "revoke"], ["key", "delete"], ["key", "help"],
    ["config", "show"], ["config", "help"]]

def helpOn (topic : List String) : Stop := if topic ∈ helpTopics then .help else .usage

def required : Option String → Except Stop String
  | some value => .ok value
  | none => .error .usage

def readKeyCommand : List String → Except Stop Command
  | "import" :: rest => do
    let w ← importGrammar.read {} none rest
    return importKey (← required (w.value? "name")) w.operands.head? (w.has "protect")
  | "list" :: rest => do
    let _ ← (grammar 0 []).read {} none rest
    return listKeys
  | "revoke" :: rest => do
    let w ← (grammar 1 []).read {} none rest
    return revokeKey (← required w.operands.head?)
  | "delete" :: rest => do
    let w ← (grammar 1 []).read {} none rest
    return deleteKey (← required w.operands.head?)
  | "help" :: rest => .error (helpOn ("key" :: rest))
  | _ => .error .usage

def readConfigCommand : List String → Except Stop Command
  | "show" :: rest => do
    let _ ← (grammar 0 []).read {} none rest
    return showSettings
  | "help" :: rest => .error (helpOn ("config" :: rest))
  | _ => .error .usage

def readCommand : List String → Except Stop Command
  | "encrypt" :: rest => do
    let w ← encryptGrammar.read {} none rest
    return encrypt w.operands.head? (w.value? "key") (w.has "password") (w.has "base61")
      (w.has "no-url")
  | "decrypt" :: rest => do
    let w ← decryptGrammar.read {} none rest
    return decrypt w.operands.head? (w.has "password")
  | "keygen" :: rest => do
    let w ← keygenGrammar.read {} none rest
    return keygen (← required (w.value? "name")) (w.has "protect")
  | "key" :: rest => do readKeyCommand (← (groupGrammar []).read {} none rest).rest
  | "config" :: rest => do readConfigCommand (← (groupGrammar []).read {} none rest).rest
  | "help" :: rest => .error (helpOn rest)
  | _ => .error .usage

/-- The command that the words of a command line ask for. -/
def Invocation.ofWords (words : List String) : Except Stop Invocation := do
  let w ← programGrammar.read {} none words
  return {
    command := ← readCommand w.rest
    settingsPath := w.value? "config"
    logLevel := w.value? "log"
    logStyle := w.value? "log-format" }

end Command

end SealedText
