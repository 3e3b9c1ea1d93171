import SealedText.Gzip.Huffman

/-!
# Optimal code lengths

The shortest prefix code for known symbol counts whose codewords have a limited length. Each symbol is an
item that weighs its count. Repeatedly the items so far are joined in pairs from the lightest up and the
single items are merged in again; after as many rounds as the limit allows, each symbol's codeword is as
long as the number of times it occurs among the lightest `2 * (n - 1)` items.
-/

namespace SealedText.Gzip

/-- A weight with the symbols that make it up. -/
structure Package where
  weight : Nat
  symbols : List Nat

def Package.join (a b : Package) : Package := ⟨a.weight + b.weight, a.symbols ++ b.symbols⟩

/-- Neighbours joined in pairs; an odd one at the end is left out. -/
def pairUp : List Package → List Package
  | a :: b :: rest => a.join b :: pairUp rest
  | _ => []

def lighter (a b : Package) : Bool := a.weight ≤ b.weight

def mergeRounds (singles : List Package) : Nat → List Package
  | 0 => singles
  | rounds + 1 => singles.merge (pairUp (mergeRounds singles rounds)) lighter

/-- The codeword lengths for symbol counts, none longer than `limit`. A lone symbol has length 1. -/
def codeLengths (limit : Nat) (counts : List Nat) : List Nat :=
  let used := counts.zipIdx.filter fun c => c.1 ≠ 0
  let singles := (used.map fun c => (⟨c.1, [c.2]⟩ : Package)).mergeSort lighter
  match used with
  | [(_, sym)] => (List.range counts.length).map fun i => if i = sym then 1 else 0
  | _ =>
    let chosen := (mergeRounds singles (limit - 1)).take (2 * (singles.length - 1))
    let lengths := chosen.foldl
      (fun lengths p => p.symbols.foldl (fun (a : Array Nat) sym => a.modify sym (· + 1)) lengths)
      (Array.replicate counts.length 0)
    lengths.toList

end SealedText.Gzip
