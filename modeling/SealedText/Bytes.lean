/-!
# Byte strings

A byte string is a list of bytes. Here are the few operations that the ciphers, the text codecs and the
envelope share: cutting into blocks, exclusive or, and reading a byte string as a number with its most
significant byte first.
-/

namespace SealedText

abbrev Bytes := List UInt8

/-- The blocks of `width` elements that make up a list; only the last may be shorter. A width of 0
counts as 1. -/
def blocksOf {α : Type} (width : Nat) : List α → List (List α)
  | [] => []
  | x :: xs => (x :: xs.take (width - 1)) :: blocksOf width (xs.drop (width - 1))
termination_by xs => xs.length
decreasing_by simp only [List.length_drop, List.length_cons]; omega

theorem flatten_blocksOf {α : Type} (width : Nat) (xs : List α) :
    (blocksOf width xs).flatten = xs := by
  fun_induction blocksOf width xs with
  | case1 => rfl
  | case2 x xs ih => rw [List.flatten_cons, ih, List.cons_append, List.take_append_drop]

namespace Bytes

/-- Bytewise exclusive or, as long as the shorter operand. -/
def xor (a b : Bytes) : Bytes := List.zipWith (· ^^^ ·) a b

/-- The number whose base-256 digits are the bytes, most significant first. -/
def toNat (bytes : Bytes) : Nat := bytes.foldl (fun value b => value * 256 + b.toNat) 0

/-- The last `width` base-256 digits of a number, most significant first. -/
def ofNat : Nat → Nat → Bytes
  | 0, _ => []
  | width + 1, value => ofNat width (value / 256) ++ [UInt8.ofNat value]

theorem length_ofNat (width value : Nat) : (ofNat width value).length = width := by
  induction width generalizing value with
  | zero => rfl
  | succ width ih => simp [ofNat, ih]

end Bytes

end SealedText
