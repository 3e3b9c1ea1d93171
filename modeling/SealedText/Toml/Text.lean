/-!
# Texts in TOML

A text is written in one of four forms: between quotes with escapes, between apostrophes as it stands, or in
either way between three of them, over several lines. A form over several lines drops a line break right
after its opening, and up to two quotes may stand in front of its closing ones.

`quoteText` takes the plainest form that shows the text without escapes, and escapes only when no form does.
-/

namespace SealedText.Toml

/-- The characters that stand for themselves: all but the controls, with the tab let in. -/
def isPlain (c : Char) : Bool := c = '\t' || (32 ≤ c.toNat && c.toNat ≠ 127)

def isSpace (c : Char) : Bool := c = ' ' || c = '\t'

/-! ## Reading -/

def hexDigit? (c : Char) : Option Nat :=
  if '0' ≤ c ∧ c ≤ '9' then some (c.toNat - 48)
  else if 'a' ≤ c ∧ c ≤ 'f' then some (c.toNat - 97 + 10)
  else if 'A' ≤ c ∧ c ≤ 'F' then some (c.toNat - 65 + 10)
  else none

/-- The character of an escape by letter. -/
def escaped? : Char → Option Char
  | 'b' => some '\x08'
  | 't' => some '\t'
  | 'n' => some '\n'
  | 'f' => some '\x0c'
  | 'r' => some '\r'
  | '"' => some '"'
  | '\\' => some '\\'
  | _ => none

/-- The character whose code is written in hexadecimal. -/
def coded? (digits : List Char) : Option Char := do
  let n := (← digits.mapM hexDigit?).foldl (fun n d => n * 16 + d) 0
  if n.isValidChar then return Char.ofNat n else none

/-- Put a character in front of what was read. -/
def prepend (c : Char) (read : Option (List Char × List Char)) : Option (List Char × List Char) :=
  read.map fun (text, rest) => (c :: text, rest)

/-- A text after its opening quote. -/
def readQuoted : List Char → Option (List Char × List Char)
  | [] => none
  | '"' :: rest => some ([], rest)
  | '\\' :: 'u' :: a :: b :: c :: d :: rest => do prepend (← coded? [a, b, c, d]) (readQuoted rest)
  | '\\' :: 'U' :: a :: b :: c :: d :: e :: f :: g :: h :: rest => do
    prepend (← coded? [a, b, c, d, e, f, g, h]) (readQuoted rest)
  | '\\' :: c :: rest => do prepend (← escaped? c) (readQuoted rest)
  | c :: rest => if isPlain c && c ≠ '\\' then prepend c (readQuoted rest) else none

/-- A text after its opening apostrophe. -/
def readLiteral : List Char → Option (List Char × List Char)
  | [] => none
  | '\'' :: rest => some ([], rest)
  | c :: rest => if isPlain c then prepend c (readLiteral rest) else none

/-- Where the reader stands in a quoted text of several lines. -/
inductive Fold
  | text
  /-- Behind a backslash that ends a line, in front of the line break. -/
  | lineEnd
  /-- Behind that line break, where blanks and further line breaks are dropped. -/
  | blanks

/-- A text of several lines after its opening quotes. -/
def readQuotedLines : Fold → List Char → Option (List Char × List Char)
  | _, [] => none
  | .lineEnd, '\n' :: rest => readQuotedLines .blanks rest
  | .lineEnd, '\r' :: '\n' :: rest => readQuotedLines .blanks rest
  | .lineEnd, c :: rest => if isSpace c then readQuotedLines .lineEnd rest else none
  | .blanks, '\n' :: rest => readQuotedLines .blanks rest
  | .blanks, '\r' :: '\n' :: rest => readQuotedLines .blanks rest
  | .blanks, ' ' :: rest => readQuotedLines .blanks rest
  | .blanks, '\t' :: rest => readQuotedLines .blanks rest
  | _, '"' :: '"' :: '"' :: '"' :: '"' :: rest => some (['"', '"'], rest)
  | _, '"' :: '"' :: '"' :: '"' :: rest => some (['"'], rest)
  | _, '"' :: '"' :: '"' :: rest => some ([], rest)
  | _, '\n' :: rest => prepend '\n' (readQuotedLines .text rest)
  | _, '\r' :: '\n' :: rest => prepend '\n' (readQuotedLines .text rest)
  | _, '\\' :: '\n' :: rest => readQuotedLines .blanks rest
  | _, '\\' :: '\r' :: '\n' :: rest => readQuotedLines .blanks rest
  | _, '\\' :: ' ' :: rest => readQuotedLines .lineEnd rest
  | _, '\\' :: '\t' :: rest => readQuotedLines .lineEnd rest
  | _, '\\' :: 'u' :: a :: b :: c :: d :: rest => do
    prepend (← coded? [a, b, c, d]) (readQuotedLines .text rest)
  | _, '\\' :: 'U' :: a :: b :: c :: d :: e :: f :: g :: h :: rest => do
    prepend (← coded? [a, b, c, d, e, f, g, h]) (readQuotedLines .text rest)
  | _, '\\' :: c :: rest => do prepend (← escaped? c) (readQuotedLines .text rest)
  | _, c :: rest =>
    if isPlain c && c ≠ '\\' then prepend c (readQuotedLines .text rest) else none

/-- A text of several lines after its opening apostrophes. -/
def readLiteralLines : List Char → Option (List Char × List Char)
  | [] => none
  | '\'' :: '\'' :: '\'' :: '\'' :: '\'' :: rest => some (['\'', '\''], rest)
  | '\'' :: '\'' :: '\'' :: '\'' :: rest => some (['\''], rest)
  | '\'' :: '\'' :: '\'' :: rest => some ([], rest)
  | '\n' :: rest => prepend '\n' (readLiteralLines rest)
  | '\r' :: '\n' :: rest => prepend '\n' (readLiteralLines rest)
  | c :: rest => if isPlain c then prepend c (readLiteralLines rest) else none

/-- Drop a line break right after an opening. -/
def dropBreak : List Char → List Char
  | '\n' :: rest => rest
  | '\r' :: '\n' :: rest => rest
  | cs => cs

/-- A text in any of the four forms, from its first quote or apostrophe on. -/
def readAnyText : List Char → Option (List Char × List Char)
  | '"' :: '"' :: '"' :: rest => readQuotedLines .text (dropBreak rest)
  | '"' :: rest => readQuoted rest
  | '\'' :: '\'' :: '\'' :: rest => readLiteralLines (dropBreak rest)
  | '\'' :: rest => readLiteral rest
  | _ => none

/-! ## Writing -/

/-- The capital hexadecimal digit of a number below 16. -/
def hexCapital (n : Nat) : Char := if n < 10 then Char.ofNat (48 + n) else Char.ofNat (55 + n)

/-- A control other than the tab and the line break. -/
def needsCode (c : Char) : Bool := !isPlain c && c ≠ '\n'

def escapeChar (c : Char) : List Char :=
  if c = '\x08' then ['\\', 'b']
  else if c = '\t' then ['\\', 't']
  else if c = '\n' then ['\\', 'n']
  else if c = '\x0c' then ['\\', 'f']
  else if c = '\r' then ['\\', 'r']
  else if c = '"' then ['\\', '"']
  else if c = '\\' then ['\\', '\\']
  else if needsCode c then ['\\', 'u', '0', '0', hexCapital (c.toNat / 16), hexCapital (c.toNat % 16)]
  else [c]

/-- A text over several lines, where `run` quotes stand right in front. A third quote in a row is
escaped. -/
def escapeLines (run : Nat) : List Char → List Char
  | [] => []
  | c :: rest =>
    if c = '"' then
      if run < 2 then '"' :: escapeLines (run + 1) rest else '\\' :: '"' :: escapeLines 0 rest
    else (if c = '\n' then ['\n'] else escapeChar c) ++ escapeLines 0 rest

/-- The greatest number of times that a character comes in a row, `run` times right in front. -/
def longestRun (mark : Char) (run : Nat) : List Char → Nat
  | [] => run
  | c :: rest =>
    if c = mark then longestRun mark (run + 1) rest else max run (longestRun mark 0 rest)

/-- The line break after the opening of a form over several lines. -/
def openingBreak (cs : List Char) : List Char := if cs.contains '\n' then ['\n'] else []

def threeQuotes : List Char := ['"', '"', '"']

def threeApostrophes : List Char := ['\'', '\'', '\'']

def quoted (cs : List Char) : List Char := '"' :: cs.flatMap escapeChar ++ ['"']

def quotedLines (cs : List Char) : List Char :=
  threeQuotes ++ openingBreak cs ++ escapeLines 0 cs ++ threeQuotes

/-- A text in the first form that shows it as it is, or else with escapes. -/
def quoteText (cs : List Char) : List Char :=
  let coded := cs.any needsCode
  let broken := cs.contains '\n'
  if !coded && !broken && !cs.contains '"' && !cs.contains '\\' then quoted cs
  else if !coded && !broken && !cs.contains '\'' then '\'' :: cs ++ ['\'']
  else if !coded && !cs.contains '\\' && longestRun '"' 0 cs ≤ 2 then quotedLines cs
  else if !coded && longestRun '\'' 0 cs ≤ 2 then
    threeApostrophes ++ openingBreak cs ++ cs ++ threeApostrophes
  else if broken then quotedLines cs
  else quoted cs

end SealedText.Toml
