/-!
# Canonical prefix codes

A prefix code is given by the length of each symbol's codeword, 0 for a symbol without one. The words of
each length are consecutive numbers in symbol order, and shorter words come before longer ones. A reader
walks the tree of the codewords; a writer looks up the word of each symbol.
-/

namespace SealedText.Gzip

/-- No codeword of the compressed format is longer. -/
def maxCodeLength : Nat := 15

/-- The length and the value of each symbol's codeword; unused symbols have length 0. -/
def codewords (lengths : List Nat) : List (Nat × Nat) :=
  let counts := lengths.foldl (fun (counts : Array Nat) l => counts.modify l (· + 1))
    (Array.replicate (maxCodeLength + 1) 0)
  let first := (List.range (maxCodeLength + 1)).foldl
    (fun (next : Array Nat) l =>
      if l < 2 then next.push 0 else next.push ((next.getD (l - 1) 0 + counts.getD (l - 1) 0) * 2))
    #[]
  (lengths.foldl (fun (acc : List (Nat × Nat) × Array Nat) l =>
    if l = 0 then ((0, 0) :: acc.1, acc.2)
    else ((l, acc.2.getD l 0) :: acc.1, acc.2.modify l (· + 1))) ([], first)).1.reverse

/-- A tree of codewords. Its branches are named for the bit that leads there. -/
inductive CodeTree
  | none
  | symbol (n : Nat)
  | branch (zero one : CodeTree)
  deriving Inhabited

namespace CodeTree

/-- Add a codeword of the given length and value. -/
def insert (t : CodeTree) (value sym : Nat) : Nat → CodeTree
  | 0 => .symbol sym
  | length + 1 =>
    let (zero, one) := match t with
      | .branch zero one => (zero, one)
      | _ => (.none, .none)
    if value.testBit length then .branch zero (insert one value sym length)
    else .branch (insert zero value sym length) one

/-- The tree of a code, all of whose lengths are at most `maxCodeLength`. -/
def ofLengths (lengths : List Nat) : CodeTree :=
  ((codewords lengths).zipIdx.foldl (fun t w =>
    if w.1.1 = 0 then t else t.insert w.1.2 w.2 w.1.1) .none)

end CodeTree

/-- The share of all bit strings that start with a codeword, where 1 is `1 <<< maxCodeLength`. -/
def coverage (lengths : List Nat) : Nat :=
  lengths.foldl (fun sum l => if l = 0 then sum else sum + (1 <<< (maxCodeLength - l))) 0

/-- Every long enough bit string starts with exactly one codeword. -/
def isComplete (lengths : List Nat) : Bool := coverage lengths == 1 <<< maxCodeLength

/-- A complete code, one whose only word is a single bit, or one without words. -/
def isUsable (lengths : List Nat) : Bool :=
  isComplete lengths || lengths.foldl (· + ·) 0 ≤ 1

end SealedText.Gzip
