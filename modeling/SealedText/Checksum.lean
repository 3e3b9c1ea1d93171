import SealedText.Cipher.Mac
import SealedText.Cipher.Standard
import SealedText.Key

/-!
# The checksum of a copied secret

A secret that people copy by hand carries a checksum, its tag under an all-zero key. It catches slips of
the pen; it hides nothing and proves nothing about who wrote it.
-/

namespace SealedText.Checksum

def key : Bytes := List.replicate fullKeySize 0

def ofSecret (secret : Bytes) : Except CipherError Bytes := macOf .standard key secret

/-- The secret followed by its checksum. -/
def attach (secret : Bytes) : Except CipherError Bytes :=
  return secret ++ (← ofSecret secret)

/-- The secret in front of a checksum that fits it. -/
def verify? (framed : Bytes) : Option Bytes :=
  if framed.length < tagSize then none
  else
    let secret := framed.take (framed.length - tagSize)
    match ofSecret secret with
    | .error _ => none
    | .ok sum => if tagsEqual sum (framed.drop (framed.length - tagSize)) then some secret else none

end SealedText.Checksum
