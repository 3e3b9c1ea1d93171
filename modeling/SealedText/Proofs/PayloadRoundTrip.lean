import SealedText.Payload
import SealedText.Proofs.DeflateRoundTrip

/-!
# Payloads read back

A text is put into its gzip form or left as it stands, and both are read back; so `read` undoes
`ofMessage` for every message within the limit.
-/

namespace SealedText

/-- A message that readers take: a text of at most the limit in UTF-8, or a revocation. -/
def Message.Fits : Message → Prop
  | .text content => content.toUTF8.size ≤ Payload.maxUnpacked
  | .revocation => True

instance : DecidablePred Message.Fits
  | .text content => inferInstanceAs (Decidable (content.toUTF8.size ≤ Payload.maxUnpacked))
  | .revocation => .isTrue trivial

namespace Payload

theorem textOf_toUTF8 (text : String) : textOf text.toUTF8 = .ok (.text text) := by
  rw [textOf, Utf8.decode_toUTF8]

theorem length_ofText (level : Nat) (text : String) :
    (ofText level text).length = 1 + min text.toUTF8.size
      (Gzip.compress (min level maxLevel) text.toUTF8).size := by
  by_cases hshort :
      (Gzip.compress (min level maxLevel) text.toUTF8).size < text.toUTF8.size
  · rw [ofText, if_pos hshort, Nat.min_eq_right (Nat.le_of_lt hshort), Nat.add_comm]
    rfl
  · rw [ofText, if_neg hshort, Nat.min_eq_left (Nat.not_lt.1 hshort), Nat.add_comm]
    rfl

theorem read_ofText (level : Nat) {text : String} (h : text.toUTF8.size ≤ maxUnpacked) :
    read (ofText level text) = .ok (.text text) := by
  by_cases hshort :
      (Gzip.compress (min level maxLevel) text.toUTF8).size < text.toUTF8.size
  · rw [ofText, if_pos hshort, read, PayloadKind.ofByte?_toByte]
    simp only [Utf8.pack_toList, Gzip.decompress_compress _ h, textOf_toUTF8]
  · rw [ofText, if_neg hshort, read, PayloadKind.ofByte?_toByte]
    simp only [Utf8.pack_toList, textOf_toUTF8]

theorem read_ofMessage (level : Nat) {message : Message} (h : message.Fits) :
    read (ofMessage level message) = .ok message := by
  cases message with
  | text content => exact read_ofText level h
  | revocation => rfl

end Payload

end SealedText
