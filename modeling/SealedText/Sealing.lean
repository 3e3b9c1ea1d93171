import SealedText.Cipher.Standard
import SealedText.Envelope
import SealedText.Link
import SealedText.Payload
import SealedText.Token

/-!
# Sealing messages

A message becomes a payload, the payload goes into an envelope, and the envelope is written as a token or
as a link. Shared keys use the plain form of the envelope, passwords the salted form.
-/

namespace SealedText

/-- How a sealed message is written. -/
structure MessageStyle where
  encoding : TokenEncoding := .base64url
  wrapped : Bool := true
  linkStart : String := Link.defaultStart
  level : Nat := Payload.defaultLevel

/-- A sealed message as a token or a link. -/
def MessageStyle.write (o : MessageStyle) (sealed : Bytes) : String :=
  let token := o.encoding.encode sealed
  if o.wrapped then Link.wrap o.linkStart token else token

/-- Seal a message under a keyset. -/
def Keyset.seal (keys : Keyset) (o : MessageStyle) (iv : Bytes) (message : Message) :
    Except CipherError String :=
  return o.write (← Envelope.encrypt .standard keys iv (Payload.ofMessage o.level message))

/-- Seal a message under a single key, as a password makes it. -/
def SecretKey.seal (key : SecretKey) (o : MessageStyle) (iv salt : Bytes) (message : Message) :
    Except CipherError String :=
  return o.write
    (← Envelope.Salted.encrypt .standard key iv salt (Payload.ofMessage o.level message))

end SealedText
