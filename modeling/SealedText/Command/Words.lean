/-!
# The words of a command line

A command line is a list of words. A word that starts with `--` is an option by name, with its value after
`=` or in the next word; one that starts with `-` is a row of options by letter, of which the last may have a
value, in the same word or in the next. The word `--` ends the options, and `-` alone is no option.

The words are read from left to right and the first that settles the matter ends the reading: a mistake, or
an option that asks for the help or the version. A word that looks like an option is never the value of the
option in front of it.
-/

namespace SealedText.Command

/-- What a command line asks for in place of a command. -/
inductive Stop
  /-- The words make no command. -/
  | usage
  | help
  | version
  deriving DecidableEq, Repr

/-- What an option takes. -/
inductive Takes
  | nothing
  | text
  | nonEmptyText
  | oneOf (choices : List String)
  /-- It takes nothing and ends the reading. -/
  | stop (s : Stop)
  deriving DecidableEq, Repr

def Takes.hasValue : Takes → Bool
  | nothing => false
  | stop _ => false
  | _ => true

/-- A value that an option does not accept ends the reading. -/
def Takes.check : Takes → String → Except Stop Unit
  | nothing, _ => .ok ()
  | text, _ => .ok ()
  | nonEmptyText, value => if value.isEmpty then .error .usage else .ok ()
  | oneOf choices, value => if value ∈ choices then .ok () else .error .usage
  | stop s, _ => .error s

structure Switch where
  name : String
  letter : Option Char := none
  takes : Takes := .nothing
  deriving DecidableEq, Repr

/-- What may stand on the command line of a command. -/
structure Grammar where
  switches : List Switch
  /-- How many other words it takes. In a group of commands the first other word names one of them. -/
  room : Option Nat
  deriving DecidableEq, Repr

/-- What stands on the command line of a command. -/
structure Words where
  /-- The options that are given, with their values; an option without a value has the empty one. -/
  given : List (String × String) := []
  operands : List String := []
  /-- In a group of commands, the name of one of them and the words after it. -/
  rest : List String := []
  deriving DecidableEq, Repr

namespace Words

def has (w : Words) (name : String) : Bool := w.given.any (·.1 == name)

def value? (w : Words) (name : String) : Option String := w.given.lookup name

/-- Every option may be given once. -/
def give (w : Words) (s : Switch) (value : String) : Except Stop Words :=
  if w.has s.name then .error .usage
  else do
    s.takes.check value
    return { w with given := w.given ++ [(s.name, value)] }

/-- Take words that are no options, if there is room for them. -/
def takeOperands (g : Grammar) (w : Words) (operands : List String) : Except Stop Words :=
  match g.room with
  | none => .error .usage
  | some room =>
    if w.operands.length + operands.length ≤ room then
      .ok { w with operands := w.operands ++ operands }
    else .error .usage

end Words

namespace Grammar

/-- Read an option by name. It may still want its value. -/
def readName (g : Grammar) (w : Words) (body : List Char) : Except Stop (Words × Option Switch) :=
  let name := String.ofList (body.takeWhile (· != '='))
  match g.switches.find? (·.name == name), body.dropWhile (· != '=') with
  | none, _ => .error .usage
  | some s, [] => if s.takes.hasValue then .ok (w, some s) else return (← w.give s "", none)
  | some s, _ :: value =>
    if s.takes.hasValue then return (← w.give s (String.ofList value), none) else .error .usage

/-- Read a row of options by letter. The last may still want its value. -/
def readLetters (g : Grammar) (w : Words) : List Char → Except Stop (Words × Option Switch)
  | [] => .ok (w, none)
  | c :: rest =>
    match g.switches.find? (·.letter == some c) with
    | none => .error .usage
    | some s =>
      if s.takes.hasValue then
        match rest with
        | [] => .ok (w, some s)
        | '=' :: value => return (← w.give s (String.ofList value), none)
        | value => return (← w.give s (String.ofList value), none)
      else do readLetters g (← w.give s "") rest

/-- Read words, of which the first is the value of `wanting` if that is an option. -/
def read (g : Grammar) (w : Words) : Option Switch → List String → Except Stop Words
  | none, [] => .ok w
  | some _, [] => .error .usage
  | some s, word :: rest => do
    if word.startsWith "-" && word != "-" then throw .usage
    read g (← w.give s word) none rest
  | none, word :: rest =>
    match word.toList with
    | ['-', '-'] => w.takeOperands g rest
    | '-' :: '-' :: body => do
      let (w, wanting) ← g.readName w body
      read g w wanting rest
    | '-' :: c :: letters => do
      let (w, wanting) ← g.readLetters w (c :: letters)
      read g w wanting rest
    | _ =>
      if g.room.isNone then .ok { w with rest := word :: rest }
      else do read g (← w.takeOperands g [word]) none rest

end Grammar

end SealedText.Command
