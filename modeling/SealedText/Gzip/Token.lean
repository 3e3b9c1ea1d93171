/-!
# Literals and copies

Compressing first cuts the data into tokens: a token is a literal byte or a copy of 3 to 258 bytes that
stand up to 32768 bytes back. Earlier places are found by a hash of three bytes, latest first, and
`effort` bounds how many of them are tried. A copy takes only bytes that were compared.
-/

namespace SealedText.Gzip

inductive Token
  | literal (b : UInt8)
  | copy (length distance : Nat)
  deriving Inhabited

def minCopy : Nat := 3

def maxCopy : Nat := 258

def maxDistance : Nat := 32768

/-- How many earlier places are tried at each compression level. -/
def effortOf (level : Nat) : Nat := 1 <<< (min level 9 + 1)

/-- Places by the hash of the three bytes there. Both arrays hold places plus one, 0 for none. -/
structure Places where
  /-- The latest place with a hash. -/
  latest : Array Nat
  /-- By place, the one before it with the same hash. -/
  earlier : Array Nat

namespace Places

def hashCount : Nat := 4096

def empty : Places := ⟨Array.replicate hashCount 0, #[]⟩

def hashAt (data : ByteArray) (i : Nat) : Nat :=
  ((data.get! i).toNat * 256 + (data.get! (i + 1)).toNat * 16 + (data.get! (i + 2)).toNat)
    % hashCount

/-- Note the next place. The last two of the data have no hash and are never looked for. -/
def note (p : Places) (data : ByteArray) : Places :=
  let i := p.earlier.size
  if i + minCopy ≤ data.size then
    let h := hashAt data i
    ⟨p.latest.set! h (i + 1), p.earlier.push (p.latest.getD h 0)⟩
  else ⟨p.latest, p.earlier.push 0⟩

def noteMany (p : Places) (data : ByteArray) : Nat → Places
  | 0 => p
  | count + 1 => (p.note data).noteMany data count

end Places

/-- How many bytes at `i` and `j` agree, at most `limit`. -/
def agreement (data : ByteArray) (i j : Nat) : Nat → Nat
  | 0 => 0
  | limit + 1 =>
    if data.get! i == data.get! j then agreement data (i + 1) (j + 1) limit + 1 else 0

/-- The best copy for place `i`: the longest, and of those the nearest. `next` is a place plus one. -/
def bestCopy (data : ByteArray) (places : Places) (i limit : Nat) :
    Nat → Nat → Nat × Nat → Nat × Nat
  | 0, _, best => best
  | effort + 1, next, best =>
    if next = 0 || best.1 = limit || i + 1 > next + maxDistance then best
    else
      let n := agreement data (next - 1) i limit
      let best := if n > best.1 then (n, i + 1 - next) else best
      bestCopy data places i limit effort (places.earlier.getD (next - 1) 0) best

/-- The tokens from place `i` on, latest first, in front of those already found. -/
def findTokens (data : ByteArray) (effort : Nat) : Nat → Nat → Places → List Token → List Token
  | 0, _, _, found => found
  | fuel + 1, i, places, found =>
    if h : i < data.size then
      let limit := min maxCopy (data.size - i)
      let start := if limit < minCopy then 0 else places.latest.getD (Places.hashAt data i) 0
      let (length, distance) := bestCopy data places i limit effort start (0, 0)
      if length < minCopy then
        findTokens data effort fuel (i + 1) (places.note data) (.literal data[i] :: found)
      else
        findTokens data effort fuel (i + length) (places.noteMany data length)
          (.copy length distance :: found)
    else found

/-- The tokens of the data, with copies. -/
def tokensOf (data : ByteArray) (effort : Nat) : List Token :=
  (findTokens data effort data.size 0 .empty []).reverse

/-- The tokens of the data as they stand, without copies. -/
def literalsOf (data : ByteArray) : List Token := data.data.toList.map .literal

end SealedText.Gzip
