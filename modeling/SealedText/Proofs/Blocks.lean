import Mathlib
import SealedText.Bytes

/-!
# Blocks, masks and numbers

Cutting is undone by joining (`flatten_blocksOf`); joining is undone by cutting, if all blocks have
the width (`blocksOf_flatten`). A list of a whole number of widths is cut into full blocks only.
Masking a block twice with the same bytes gives it back, and so does reading it as a number and
writing that out.
-/

namespace SealedText

variable {α : Type} {width : Nat}

theorem blocksOf_nil (width : Nat) : blocksOf width ([] : List α) = [] := by
  rw [blocksOf]

theorem blocksOf_ne_nil (width : Nat) {xs : List α} (h : xs ≠ []) : blocksOf width xs ≠ [] := by
  obtain ⟨x, rest, rfl⟩ := List.exists_cons_of_ne_nil h
  rw [blocksOf]
  exact List.cons_ne_nil _ _

theorem blocksOf_append (hw : 0 < width) {block : List α} (hb : block.length = width)
    (rest : List α) : blocksOf width (block ++ rest) = block :: blocksOf width rest := by
  obtain ⟨x, xs, rfl⟩ := List.exists_cons_of_length_pos (l := block) (by omega)
  have hxs : xs.length = width - 1 := by
    rw [List.length_cons] at hb
    omega
  rw [List.cons_append, blocksOf, ← hxs, List.take_left, List.drop_left]

theorem blocksOf_flatten (hw : 0 < width) :
    ∀ blocks : List (List α), (∀ b ∈ blocks, b.length = width) →
      blocksOf width blocks.flatten = blocks
  | [], _ => blocksOf_nil width
  | b :: bs, h => by
    rw [List.flatten_cons, blocksOf_append hw (h b List.mem_cons_self),
      blocksOf_flatten hw bs fun c hc => h c (List.mem_cons_of_mem b hc)]

/-- A short list is one block. -/
theorem blocksOf_of_length_le {xs : List α} (hne : xs ≠ []) (hlen : xs.length ≤ width) :
    blocksOf width xs = [xs] := by
  obtain ⟨x, rest, rfl⟩ := List.exists_cons_of_ne_nil hne
  rw [List.length_cons] at hlen
  rw [blocksOf, List.take_of_length_le (by omega), List.drop_of_length_le (by omega), blocksOf_nil]

theorem blocksOf_map {β : Type} (f : α → β) (xs : List α) :
    blocksOf width (xs.map f) = (blocksOf width xs).map (List.map f) := by
  fun_induction blocksOf width xs with
  | case1 => exact blocksOf_nil _
  | case2 x xs ih => rw [List.map_cons, blocksOf, ← List.map_take, ← List.map_drop, ih]; rfl

theorem length_firstBlock_le (hw : 0 < width) (x : α) (xs : List α) :
    (x :: xs.take (width - 1)).length ≤ width := by
  rw [List.length_cons, List.length_take]
  omega

/-- A block is full unless it is the last. -/
theorem length_firstBlock (hw : 0 < width) (x : α) {xs : List α} (h : xs.drop (width - 1) ≠ []) :
    (x :: xs.take (width - 1)).length = width := by
  have hlong := List.length_pos_iff.2 h
  rw [List.length_drop] at hlong
  rw [List.length_cons, List.length_take]
  omega

theorem mem_of_mem_blocksOf {xs block : List α} (hb : block ∈ blocksOf width xs) {x : α}
    (hx : x ∈ block) : x ∈ xs := by
  rw [← flatten_blocksOf width xs]
  exact List.mem_flatten_of_mem hb hx

/-- No block is empty or longer than the width. -/
theorem length_of_mem_blocksOf_le (hw : 0 < width) {xs : List α} :
    ∀ b ∈ blocksOf width xs, 0 < b.length ∧ b.length ≤ width := by
  fun_induction blocksOf width xs with
  | case1 => simp
  | case2 x xs ih =>
    intro b hb
    rcases List.mem_cons.1 hb with rfl | hb
    · exact ⟨Nat.succ_pos _, length_firstBlock_le hw x xs⟩
    · exact ih b hb

theorem length_of_mem_blocksOf (hw : 0 < width) {xs : List α} (h : xs.length % width = 0) :
    ∀ b ∈ blocksOf width xs, b.length = width := by
  fun_induction blocksOf width xs with
  | case1 => simp
  | case2 x xs ih =>
    have hle : width ≤ (x :: xs).length := by
      rcases Nat.lt_or_ge (x :: xs).length width with hlt | hge
      · rw [Nat.mod_eq_of_lt hlt] at h
        simp at h
      · exact hge
    rw [List.length_cons] at h hle
    intro b hb
    rcases List.mem_cons.1 hb with rfl | hb
    · rw [List.length_cons, List.length_take]
      omega
    · refine ih ?_ b hb
      have hrest : xs.length - (width - 1) = xs.length + 1 - width := by omega
      rw [List.length_drop, hrest, ← Nat.mod_eq_sub_mod hle, h]

theorem length_flatten_of_length {blocks : List (List α)} (h : ∀ b ∈ blocks, b.length = width) :
    blocks.flatten.length = blocks.length * width := by
  rw [List.length_flatten, List.map_congr_left h, List.map_const', List.sum_replicate_nat]

namespace Bytes

theorem length_xor (a b : Bytes) : (a.xor b).length = min a.length b.length := by
  rw [xor, List.length_zipWith]

theorem xor_xor : ∀ {a b : Bytes}, a.length ≤ b.length → (a.xor b).xor b = a
  | [], _, _ => by simp [xor]
  | _ :: _, [], h => by simp at h
  | x :: a, y :: b, h => by
    have ih : (xor a b).xor b = a := xor_xor (by simpa using h)
    rw [xor, xor, List.zipWith_cons_cons, List.zipWith_cons_cons, UInt8.xor_assoc, UInt8.xor_self,
      UInt8.xor_zero]
    exact congrArg (x :: ·) ih

theorem xor_comm (a b : Bytes) : a.xor b = b.xor a :=
  List.zipWith_comm_of_comm UInt8.xor_comm

theorem xor_xor_left {a b : Bytes} (h : b.length ≤ a.length) : a.xor (a.xor b) = b := by
  rw [xor_comm a b, xor_comm a, xor_xor h]

theorem toNat_concat (bytes : Bytes) (b : UInt8) :
    Bytes.toNat (bytes ++ [b]) = Bytes.toNat bytes * 256 + b.toNat := by
  rw [toNat, List.foldl_append]
  rfl

theorem ofNat_toNat (bytes : Bytes) : ofNat bytes.length (Bytes.toNat bytes) = bytes := by
  induction bytes using List.reverseRecOn with
  | nil => rfl
  | append_singleton bytes b ih =>
    have hdiv : (Bytes.toNat bytes * 256 + b.toNat) / 256 = Bytes.toNat bytes := by
      have hb := b.toNat_lt
      omega
    have hlast : UInt8.ofNat (Bytes.toNat bytes * 256 + b.toNat) = b := by
      rw [← UInt8.toNat_inj, UInt8.toNat_ofNat']
      have hb := b.toNat_lt
      omega
    rw [toNat_concat, List.length_append, List.length_singleton, ofNat, hdiv, hlast, ih]

theorem toNat_ofNat {width value : Nat} (h : value < 256 ^ width) :
    Bytes.toNat (ofNat width value) = value := by
  induction width generalizing value with
  | zero =>
    have hv : value = 0 := by omega
    subst hv
    rfl
  | succ width ih =>
    have hdiv : value / 256 < 256 ^ width := by
      rw [Nat.pow_succ] at h
      omega
    rw [ofNat, toNat_concat, ih hdiv, UInt8.toNat_ofNat']
    omega

theorem toNat_lt (bytes : Bytes) : Bytes.toNat bytes < 256 ^ bytes.length := by
  induction bytes using List.reverseRecOn with
  | nil => exact Nat.one_pos
  | append_singleton bytes b ih =>
    have hb := b.toNat_lt
    rw [toNat_concat, List.length_append, List.length_singleton, Nat.pow_succ]
    omega

/-- Strings of a length are the numbers below a power of 256. -/
theorem ncard_ofLength (width : Nat) :
    {bytes : Bytes | bytes.length = width}.ncard = 256 ^ width := by
  have himage : {bytes : Bytes | bytes.length = width} = ofNat width '' Set.Iio (256 ^ width) := by
    ext bytes
    constructor
    · rintro rfl
      exact ⟨toNat bytes, toNat_lt bytes, ofNat_toNat bytes⟩
    · rintro ⟨i, -, rfl⟩
      exact length_ofNat width i
  have hinj : Set.InjOn (ofNat width) (Set.Iio (256 ^ width)) := by
    intro i hi j hj heq
    rw [← toNat_ofNat hi, heq, toNat_ofNat hj]
  rw [himage, hinj.ncard_image, Set.ncard_eq_toFinset_card']
  simp

end Bytes

end SealedText
