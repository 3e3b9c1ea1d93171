import SealedText.Hash.Hmac
import SealedText.Text.Hex

/-!
# Random bytes

One source serves every draw: initialization vectors, salts, secrets and identifiers. It is seeded once
and yields the keyed hashes of a counter, so a draw is a function of the seed and of how much was drawn
before, and nothing is ever drawn twice.
-/

namespace SealedText

structure Entropy where
  seed : Hmac.Key
  drawn : Nat := 0

namespace Entropy

def ofSeed (seed : Bytes) : Entropy := { seed := .ofBytes seed }

/-- Block `i` of the stream. -/
def block (e : Entropy) (i : Nat) : Bytes := (e.seed.mac (Bytes.ofNat 16 i)).toBytes

/-- The next `length` bytes, and the source after them. Left-over bytes of a block are dropped. -/
def draw (e : Entropy) (length : Nat) : Bytes × Entropy :=
  let blocks := (length + 31) / 32
  (((List.range blocks).flatMap fun i => e.block (e.drawn + i)).take length,
    { e with drawn := e.drawn + blocks })

end Entropy

/-- The random identifier of sixteen bytes: version 4, written in five hexadecimal groups. -/
def uuidOfBytes (bytes : Bytes) : String :=
  let marked := bytes.mapIdx fun i b =>
    if i = 6 then (b &&& 0x0f) ||| 0x40 else if i = 8 then (b &&& 0x3f) ||| 0x80 else b
  let part (start length : Nat) := hexBytes ((marked.drop start).take length)
  "-".intercalate [part 0 4, part 4 2, part 6 2, part 8 2, part 10 6]

end SealedText
