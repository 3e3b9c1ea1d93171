/-!
# JSON values

The values of JSON, and their text spread over lines with two spaces per level. Text keeps characters as
they are but for quotes, backslashes and controls.

A reader meets texts that no string can hold, with an escape for half of a surrogate pair. They are no
error where nobody looks at them, so a text is an `Option`: none for such a one. Numbers are kept as they
were written.
-/

namespace SealedText

inductive Json
  | null
  | bool (b : Bool)
  | number (literal : List Char)
  | text (content : Option String)
  | array (items : List Json)
  | object (members : List (Option String × Json))

namespace Json

/-- A character inside a text. -/
def escapeChar (c : Char) : List Char :=
  if c = '"' then ['\\', '"']
  else if c = '\\' then ['\\', '\\']
  else if c = '\x08' then ['\\', 'b']
  else if c = '\x0c' then ['\\', 'f']
  else if c = '\n' then ['\\', 'n']
  else if c = '\r' then ['\\', 'r']
  else if c = '\t' then ['\\', 't']
  else if c.toNat < 32 then
    ['\\', 'u', '0', '0', Nat.digitChar (c.toNat / 16), Nat.digitChar (c.toNat % 16)]
  else [c]

def renderText : Option String → List Char
  | some s => '"' :: s.toList.flatMap escapeChar ++ ['"']
  | none => ['"', '\\', 'u', 'd', '8', '0', '0', '"']

/-- A new line at a depth. -/
def breakLine (depth : Nat) : List Char := '\n' :: List.replicate (2 * depth) ' '

mutual

/-- The text of a value whose closing bracket stands at the given depth. -/
def render (depth : Nat) : Json → List Char
  | null => "null".toList
  | bool true => "true".toList
  | bool false => "false".toList
  | number literal => literal
  | text content => renderText content
  | array [] => ['[', ']']
  | array (item :: rest) =>
    '[' :: breakLine (depth + 1) ++ render (depth + 1) item ++ renderItems (depth + 1) rest ++
      breakLine depth ++ [']']
  | object [] => ['{', '}']
  | object ((key, value) :: rest) =>
    '{' :: breakLine (depth + 1) ++ renderText key ++ [':', ' '] ++ render (depth + 1) value ++
      renderMembers (depth + 1) rest ++ breakLine depth ++ ['}']

def renderItems (depth : Nat) : List Json → List Char
  | [] => []
  | item :: rest => ',' :: breakLine depth ++ render depth item ++ renderItems depth rest

def renderMembers (depth : Nat) : List (Option String × Json) → List Char
  | [] => []
  | (key, value) :: rest =>
    ',' :: breakLine depth ++ renderText key ++ [':', ' '] ++ render depth value ++
      renderMembers depth rest

end

/-- The text of a document, without a line break at its end. -/
def toText (j : Json) : String := String.ofList (j.render 0)

end Json

end SealedText
