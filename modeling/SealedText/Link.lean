import SealedText.Text.Blank

/-!
# Links

A token is sent as a link, so that mail and chat programs make it one to click: a fixed start, the token,
and a slash. `unwrap` finds the token in whatever arrives. It takes what follows the first occurrence of
the start, up to the next slash; without an occurrence, or if the start is empty, it takes all there is.
White space is dropped, since long lines get broken on the way.
-/

namespace SealedText.Link

/-- The start of a link unless another is chosen. -/
def defaultStart : String := "cryptext://m/"

def wrap (start token : String) : String := start ++ token ++ "/"

/-- What follows the first occurrence of `start`. -/
def after? (start : List Char) : List Char → Option (List Char)
  | [] => if start.isEmpty then some [] else none
  | c :: rest =>
    if start.isPrefixOf (c :: rest) then some ((c :: rest).drop start.length) else after? start rest

/-- The part of a delivered text that holds the token. -/
def tokenPart (start delivered : List Char) : List Char :=
  if start.isEmpty then delivered
  else
    match after? start delivered with
    | none => delivered
    | some rest => rest.takeWhile (· ≠ '/')

def unwrap (start delivered : String) : String :=
  String.ofList ((tokenPart start.toList delivered.toList).filter (!isBlank ·))

end SealedText.Link
