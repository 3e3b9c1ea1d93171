import SealedText.Base61
import SealedText.Base64
import SealedText.Text.Quoted

/-!
# Tokens

A sealed message travels as a token, in one of two encodings: base64 in the alphabet for links, or Base61
where only letters and digits pass.
-/

namespace SealedText

inductive TokenEncoding
  | base64url
  | base61
  deriving DecidableEq, Repr

/-- Why a text is not a token. -/
inductive TokenError
  | base64 (defect : Base64.Defect)
  | base61 (defect : Base61.Defect)
  deriving DecidableEq, Repr

def Base61.Defect.message : Base61.Defect → String
  | .symbol found position => s!"invalid Base61 symbol {quotedChar found} at position {position}"
  | .group length => s!"invalid Base61 group of {length} symbols"

def TokenError.message : TokenError → String
  | base64 defect => s!"base64 decode: {defect.message}"
  | base61 defect => defect.message

namespace TokenEncoding

/-- The encodings, in the order in which a reader tries them. -/
def all : List TokenEncoding := [base64url, base61]

def encode : TokenEncoding → Bytes → String
  | base64url => Base64.encode Base64.url
  | base61 => Base61.encode

def decode (e : TokenEncoding) (text : String) : Except TokenError Bytes :=
  match e with
  | base64url => (Base64.decode Base64.url text).mapError .base64
  | base61 => (Base61.decode text).mapError .base61

end TokenEncoding

end SealedText
