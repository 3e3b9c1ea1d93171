import SealedText.Toml.Number
import SealedText.Toml.Text
import SealedText.Toml.Value

/-!
# Reading TOML

A document is read line by line into statements, and the statements are carried out one after another on
the tables read so far. Every reader takes the text from where it stands and returns what it read with the
text that is left, or nothing if the text is not of that form.
-/

namespace SealedText.Toml

/-- How deep arrays and tables between braces may nest, and how many parts a key may have. -/
def maxNesting : Nat := 79

/-! ## Blanks, comments and keys -/

def skipSpace (cs : List Char) : List Char := cs.dropWhile isSpace

/-- The text after a line break or at the end of the document. -/
def endLine? : List Char → Option (List Char)
  | [] => some []
  | '\n' :: rest => some rest
  | '\r' :: '\n' :: rest => some rest
  | _ => none

/-- The rest of a line: blanks and a comment. -/
def finishLine? (cs : List Char) : Option (List Char) :=
  match skipSpace cs with
  | '#' :: rest => endLine? (rest.dropWhile isPlain)
  | rest => endLine? rest

/-- Skip blanks, line breaks and comments. `comment` tells that the text stands inside a comment. -/
def skipLines (comment : Bool) : List Char → List Char
  | [] => []
  | '\r' :: '\n' :: rest => skipLines false rest
  | c :: rest =>
    if c = '\n' then skipLines false rest
    else if comment then if isPlain c then skipLines true rest else c :: rest
    else if c = '#' then skipLines true rest
    else if isSpace c then skipLines false rest
    else c :: rest

/-- The characters of keys that stand without quotes. -/
def isBare (c : Char) : Bool := c.isAlphanum || c = '-' || c = '_'

def readKeyPart (cs : List Char) : Option (String × List Char) :=
  match cs with
  | '"' :: rest => (readQuoted rest).map fun (content, rest) => (String.ofList content, rest)
  | '\'' :: rest => (readLiteral rest).map fun (content, rest) => (String.ofList content, rest)
  | _ =>
    let bare := cs.takeWhile isBare
    if bare.isEmpty then none else some (String.ofList bare, cs.dropWhile isBare)

/-- A key of at most so many parts. -/
def readKey : Nat → List Char → Option (List String × List Char)
  | 0, _ => none
  | most + 1, cs => do
    let (part, rest) ← readKeyPart (skipSpace cs)
    match skipSpace rest with
    | '.' :: rest =>
      let (parts, rest) ← readKey most rest
      return (part :: parts, rest)
    | rest => return ([part], rest)

/-- Enter a value under a key of one or more parts. -/
def assignKey (keys : List String) (value : Toml) (es : Entries) : Option Entries := do
  es.assign (← keys.getLast?) value keys.dropLast

/-! ## Values -/

/-- The items of an array up to and with its closing bracket, where `value` reads one. -/
def readItems (value : List Char → Option (Toml × List Char)) :
    Nat → List Char → Option (List Toml × List Char)
  | 0, _ => none
  | fuel + 1, cs =>
    match skipLines false cs with
    | ']' :: rest => some ([], rest)
    | cs => do
      let (item, rest) ← value cs
      match skipLines false rest with
      | ',' :: rest =>
        let (items, rest) ← readItems value fuel rest
        return (item :: items, rest)
      | ']' :: rest => return ([item], rest)
      | _ => none

/-- A key and its value. -/
def readPair (value : List Char → Option (Toml × List Char)) (cs : List Char) :
    Option (List String × Toml × List Char) := do
  let (keys, rest) ← readKey maxNesting cs
  let (v, rest) ← value (skipSpace (← expect '=' rest))
  return (keys, v, rest)

/-- The pairs of a table up to and with its closing brace, entered into the pairs so far. -/
def readPairs (value : List Char → Option (Toml × List Char)) :
    Nat → Entries → List Char → Option (Entries × List Char)
  | 0, _, _ => none
  | fuel + 1, es, cs => do
    let (keys, v, rest) ← readPair value cs
    let es ← assignKey keys v es
    match skipSpace rest with
    | ',' :: rest => readPairs value fuel es rest
    | '}' :: rest => return (es, rest)
    | _ => none

def ofScalar : Scalar → Toml
  | .integer n => .integer n
  | .float => .float
  | .date => .date

/-- A value, with so many levels of brackets and braces left. -/
def readValue : Nat → List Char → Option (Toml × List Char)
  | nesting, '[' :: rest =>
    match nesting with
    | 0 => none
    | n + 1 => do
      let (items, rest) ← readItems (readValue n) (rest.length + 1) rest
      return (.array items, rest)
  | nesting, '{' :: rest =>
    match nesting with
    | 0 => none
    | n + 1 =>
      match skipSpace rest with
      | '}' :: rest => some (.table .braces [], rest)
      | _ => do
        let (es, rest) ← readPairs (readValue n) (rest.length + 1) [] rest
        return (.table .braces es, rest)
  | _, 't' :: 'r' :: 'u' :: 'e' :: rest => some (.boolean true, rest)
  | _, 'f' :: 'a' :: 'l' :: 's' :: 'e' :: rest => some (.boolean false, rest)
  | _, c :: rest =>
    if c = '"' ∨ c = '\'' then do
      let (content, rest) ← readAnyText (c :: rest)
      return (.text (String.ofList content), rest)
    else do
      let (scalar, rest) ← readScalar (c :: rest)
      return (ofScalar scalar, rest)
  | _, [] => none

/-! ## Documents -/

inductive Statement
  | pair (keys : List String) (value : Toml)
  | table (keys : List String)
  | element (keys : List String)

/-- A statement with the rest of its line. -/
def readStatement : List Char → Option (Statement × List Char)
  | '[' :: '[' :: rest => do
    let (keys, rest) ← readKey maxNesting rest
    let rest ← finishLine? (← expect ']' (← expect ']' rest))
    return (.element keys, rest)
  | '[' :: rest => do
    let (keys, rest) ← readKey maxNesting rest
    let rest ← finishLine? (← expect ']' rest)
    return (.table keys, rest)
  | cs => do
    let (keys, value, rest) ← readPair (readValue maxNesting) cs
    return (.pair keys value, ← finishLine? rest)

/-- The statements of a document, for documents of fewer lines than `fuel`. -/
def readStatements : Nat → List Char → Option (List Statement)
  | 0, _ => none
  | fuel + 1, cs =>
    match skipSpace cs with
    | [] => some []
    | '#' :: rest => do readStatements fuel (← endLine? (rest.dropWhile isPlain))
    | '\n' :: rest => readStatements fuel rest
    | '\r' :: '\n' :: rest => readStatements fuel rest
    | cs => do
      let (statement, rest) ← readStatement cs
      return statement :: (← readStatements fuel rest)

/-- The tables read so far, and the table that is open. -/
structure Progress where
  root : Entries := []
  opened : List String := []

def Progress.carryOut (p : Progress) : Statement → Option Progress
  | .pair keys value => do
    return { p with root := ← p.root.within (assignKey keys value) p.opened }
  | .table keys => do return ⟨← p.root.place openTable keys, keys⟩
  | .element keys => do return ⟨← p.root.place openElement keys, keys⟩

/-- The mark that may stand in front of a text in UTF-8. -/
def byteOrderMark : Char := Char.ofNat 0xfeff

def withoutMark : List Char → List Char
  | c :: rest => if c = byteOrderMark then rest else c :: rest
  | [] => []

/-- The entries of a document. -/
def ofChars? (cs : List Char) : Option Entries := do
  let statements ← readStatements (cs.length + 1) (withoutMark cs)
  return (← statements.foldlM Progress.carryOut {}).root

def ofText? (s : String) : Option Entries := ofChars? s.toList

end SealedText.Toml
