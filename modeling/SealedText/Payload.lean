import SealedText.Bytes
import SealedText.Gzip.Member
import SealedText.Text.Hex
import SealedText.Text.Utf8

/-!
# Payloads

What is sealed is a payload: a byte for the kind, and a body.

| kind            | byte | body                   |
| --              | --   | --                     |
| plain           | 0    | the text in UTF-8      |
| gzip            | 1    | a gzip member of it    |
| key replacement | 2    | reserved               |
| revocation      | 3    | nothing                |

A text takes the gzip form only when that is strictly shorter. `read` is strict: another byte, a body where
none belongs and a body that does not decode are all refused.
-/

namespace SealedText

/-- What a payload says. -/
inductive Message
  | text (content : String)
  /-- The key that sealed the message is not to be used any more. -/
  | revocation
  deriving DecidableEq, Repr

inductive PayloadKind
  | plain
  | gzip
  | keyReplacement
  | revocation
  deriving DecidableEq, Repr

namespace PayloadKind

def toByte : PayloadKind → UInt8
  | plain => 0
  | gzip => 1
  | keyReplacement => 2
  | revocation => 3

def ofByte? : UInt8 → Option PayloadKind
  | 0 => some plain
  | 1 => some gzip
  | 2 => some keyReplacement
  | 3 => some revocation
  | _ => none

theorem ofByte?_toByte (k : PayloadKind) : ofByte? k.toByte = some k := by cases k <;> rfl

end PayloadKind

/-- Why a payload cannot be read or made. -/
inductive PayloadError
  | empty
  | unknownKind (byte : UInt8)
  | extraBody (length : Nat)
  /-- Key replacement. -/
  | reserved
  | gzip (fault : Gzip.MemberFault)
  | notUtf8 (defect : Utf8.Defect)
  deriving DecidableEq, Repr

namespace Payload

/-- The most bytes that a compressed body may unfold to. -/
def maxUnpacked : Nat := 16777216

def defaultLevel : Nat := 6

def maxLevel : Nat := 9

/-- The payload of a text. Levels above `maxLevel` count as that. -/
def ofText (level : Nat) (text : String) : Bytes :=
  let raw := text.toUTF8
  let short := Gzip.compress (min level maxLevel) raw
  if short.size < raw.size then PayloadKind.gzip.toByte :: short.data.toList
  else PayloadKind.plain.toByte :: raw.data.toList

def revocation : Bytes := [PayloadKind.revocation.toByte]

/-- The payload of a message. -/
def ofMessage (level : Nat) : Message → Bytes
  | .text content => ofText level content
  | .revocation => revocation

/-- Key replacement has a kind of its own but no layout yet. -/
def replacement : Except PayloadError Bytes := .error .reserved

def textOf (body : ByteArray) : Except PayloadError Message :=
  match Utf8.decode body with
  | .ok text => .ok (.text text)
  | .error defect => .error (.notUtf8 defect)

def read : Bytes → Except PayloadError Message
  | [] => .error .empty
  | kind :: body =>
    match PayloadKind.ofByte? kind with
    | none => .error (.unknownKind kind)
    | some .plain => textOf (Utf8.pack body)
    | some .gzip =>
      match Gzip.decompress maxUnpacked (Utf8.pack body) with
      | .ok raw => textOf raw
      | .error fault => .error (.gzip fault)
    | some .keyReplacement => .error .reserved
    | some .revocation => if body.isEmpty then .ok .revocation else .error (.extraBody body.length)

end Payload

/-- The feature that a payload of a reserved kind asks for. -/
def keyReplacementFeature : String := "key replacement"

/-- The text of a fault of the gzip member, with the limit that was passed. -/
def Gzip.MemberFault.message : Gzip.MemberFault → String
  | .endOfInput => "compression: unexpected end of file"
  | .header => "compression: invalid gzip header"
  | .headerText => "compression: gzip header field too long"
  | .deflated fault => s!"compression: {fault.message}"
  | .checksum => "compression: corrupt gzip stream does not have a matching checksum"
  | .tooLong => s!"decompressed body exceeds {Payload.maxUnpacked} bytes"

def PayloadError.message : PayloadError → String
  | empty => "empty payload"
  | unknownKind byte => s!"unknown message type byte 0x{hexByte byte}"
  | extraBody length =>
    s!"key revocation payload must have an empty body, got {length} bytes"
  | reserved => s!"{keyReplacementFeature} is not implemented"
  | gzip fault => fault.message
  | notUtf8 defect => s!"payload is not UTF-8: {defect.message}"

end SealedText
