import SealedText.Text.Hex
import SealedText.Text.Invisible

/-!
# Quoted text

Messages show a character or a string from the user between quotes, with everything that could mislead
the reader written as an escape: the backslash, the quote that encloses, the common controls by letter,
and other invisible characters by code.
-/

namespace SealedText

/-- A character as it stands between the given quotes. -/
def escapeChar (quote c : Char) : List Char :=
  if c = '\x00' then ['\\', '0']
  else if c = '\t' then ['\\', 't']
  else if c = '\n' then ['\\', 'n']
  else if c = '\r' then ['\\', 'r']
  else if c = '\\' ∨ c = quote then ['\\', c]
  else if isInvisible c then "\\u\x7b".toList ++ Nat.toDigits 16 c.toNat ++ ['\x7d']
  else [c]

/-- A character in single quotes. -/
def quotedChar (c : Char) : String := String.ofList ('\'' :: escapeChar '\'' c ++ ['\''])

/-- A string in double quotes. -/
def quotedText (s : String) : String :=
  String.ofList ('"' :: s.toList.flatMap (escapeChar '"') ++ ['"'])

end SealedText
