import SealedText.Command.Run

/-!
# Sessions

A session is one run of the program: it reads its words, its settings and, as far as the command needs them,
the standard input and the key file, and it writes the key file back if the command changed it. All that it
asks of the world is a `Host`, so it runs on files as well as on a state in memory.
-/

namespace SealedText

/-- How a session ends. -/
inductive Reply
  /-- The command succeeded and prints a text. -/
  | done (output : String)
  | failed (f : Failure)
  /-- The words make no command to run. -/
  | stopped (s : Command.Stop)
  deriving DecidableEq, Repr

namespace Reply

def version : String := "cryptext 0.1.0\n"

def usage : String :=
  "Usage: cryptext [-c PATH] [--log LEVEL] [--log-format json|text] COMMAND\n\n" ++
  "  encrypt [TEXT] [-k KEY] [-p] [--base61] [--no-url]   seal a message\n" ++
  "  decrypt [INPUT] [-p]                                 open a message\n" ++
  "  keygen -n NAME [--protect]                           make a new shared key\n" ++
  "  key import -n NAME [SECRET] [--protect]              store a key made elsewhere\n" ++
  "  key list                                             list the stored keys\n" ++
  "  key revoke KEY                                       give a key up\n" ++
  "  key delete KEY                                       remove a key\n" ++
  "  config show                                          show the settings\n" ++
  "  help                                                 show this text\n\n" ++
  "A message or key text that is left out is read from the standard input.\n"

/-- The exit code. -/
def code : Reply → UInt32
  | done _ => 0
  | failed _ => 1
  | stopped .usage => 2
  | stopped _ => 0

/-- What goes to the standard output. -/
def output : Reply → String
  | done output => output
  | stopped .help => usage
  | stopped .version => version
  | _ => ""

/-- What goes to the standard error output. -/
def errors : Reply → String
  | failed f => f.report
  | stopped .usage => usage
  | _ => ""

end Reply

/-- What a session asks of the world. -/
structure Host (m : Type → Type) where
  environment : Environment
  /-- The content of the file at a path, if there is one. -/
  contentAt : String → m (Option ByteArray)
  /-- Put a text into the file at a path. -/
  save : String → String → m Unit
  readInput : m ByteArray
  fresh : m Fresh

namespace Command

/-- The settings file of a command line: the one it names, else the one the environment names, else the
usual one. The environment may not name the empty path. -/
def Invocation.settingsFile (i : Invocation) (e : Environment) : Except Stop String :=
  match i.settingsPath, e.settingsPath with
  | some path, _ => .ok path
  | none, some path => if path.isEmpty then .error .usage else .ok path
  | none, none => .ok (Settings.defaultPath e.home)

/-- Run the command of a command line under the given settings. -/
def perform {m : Type → Type} [Monad m] (host : Host m) (command : Command) (s : Situation) :
    m Reply := do
  let input ← if command.readsInput then host.readInput else pure .empty
  let path := s.settings.storePath host.environment.home
  let content ← if command.opensStore then host.contentAt path else pure none
  let stored := attempt .store [.openingStore path] (KeyStore.ofContent path content)
  match command.run { s with input } (← host.fresh) stored with
  | .error f => return .failed f
  | .ok outcome =>
    if let some store := outcome.changed then host.save store.path store.content
    return .done outcome.output

/-- Run the program on the words of its command line. -/
def session {m : Type → Type} [Monad m] (host : Host m) (words : List String) : m Reply := do
  let environment := host.environment
  match (do
    let i ← Invocation.ofWords words
    return (i.command, ← i.settingsFile environment)) with
  | .error stop => return .stopped stop
  | .ok (command, settingsPath) =>
    let content ← host.contentAt settingsPath
    match attempt .settings [.loadingSettings settingsPath] (Settings.ofContent settingsPath content) with
    | .error f => return .failed f
    | .ok settings =>
      perform host command { settings, settingsPath, settingsFound := content.isSome, environment }

end Command

end SealedText
