import Mathlib.Tactic.SplitIfs
import SealedText.Cipher.Serpent
import SealedText.Proofs.WordBits

/-!
# Serpent is lawful

Column `j` of a block is a number of four bits, one from each word. `substitute` sends every column
through its table (`bitsAt_substitute`), although it works on whole words: of the sixteen marks
exactly one covers a column, at the value of that column (`minterms_marked`). So inverse tables undo
each other on blocks. The linear mix is undone by running it backwards. The key schedule does not
matter.
-/

namespace SealedText.Serpent

/-! ## Columns -/

def bitAt (w : UInt32) (j : Nat) : Bool := w.toBitVec.getLsbD j

/-- Column `j` of a block, lowest bit first. -/
def bitsAt (s : Quad) (j : Nat) : List Bool :=
  [bitAt s.w0 j, bitAt s.w1 j, bitAt s.w2 j, bitAt s.w3 j]

/-- The four lowest bits of a number. -/
def nibble (n : Nat) : List Bool := [n.testBit 0, n.testBit 1, n.testBit 2, n.testBit 3]

/-- The number with the given bits. -/
def columnValue (bits : List Bool) : Nat := bits.foldr (fun b n => 2 * n + b.toNat) 0

theorem quad_ext {s t : Quad} (h : ∀ j < 32, bitsAt s j = bitsAt t j) : s = t := by
  have word (u v : UInt32) (h : ∀ j < 32, bitAt u j = bitAt v j) : u = v :=
    UInt32.eq_of_toBitVec_eq (BitVec.eq_of_getLsbD_eq h)
  obtain ⟨s0, s1, s2, s3⟩ := s
  obtain ⟨t0, t1, t2, t3⟩ := t
  simp only [bitsAt, List.cons.injEq, and_true] at h
  rw [word s0 t0 fun j hj => (h j hj).1, word s1 t1 fun j hj => (h j hj).2.1,
    word s2 t2 fun j hj => (h j hj).2.2.1, word s3 t3 fun j hj => (h j hj).2.2.2]

theorem nibble_columnValue (b0 b1 b2 b3 : Bool) :
    columnValue [b0, b1, b2, b3] < 16 ∧
      nibble (columnValue [b0, b1, b2, b3]) = [b0, b1, b2, b3] := by
  revert b0 b1 b2 b3
  decide

theorem columnValue_bitsAt (s : Quad) (j : Nat) :
    columnValue (bitsAt s j) < 16 ∧ nibble (columnValue (bitsAt s j)) = bitsAt s j :=
  nibble_columnValue _ _ _ _

theorem columnValue_nibble : ∀ n < 16, columnValue (nibble n) = n := by decide

/-! ## One mark for each column -/

/-- True at the given index, and nowhere else. -/
def onlyAt : Nat → List Bool → Bool
  | _, [] => false
  | 0, b :: bs => b && bs.all (!·)
  | v + 1, b :: bs => !b && onlyAt v bs

theorem minterms_marked (s : Quad) {j : Nat} (hj : j < 32) :
    onlyAt (columnValue (bitsAt s j)) ((minterms s).map (bitAt · j)) = true := by
  have and_ (u v : UInt32) : bitAt (u &&& v) j = (bitAt u j && bitAt v j) := by
    simp [bitAt]
  have not_ (u : UInt32) : bitAt (~~~u) j = !bitAt u j := by
    simp [bitAt, hj]
  simp only [minterms, bitsAt, List.flatMap_cons, List.flatMap_nil, List.map_cons, List.map_nil,
    List.cons_append, List.nil_append, and_, not_]
  generalize bitAt s.w0 j = b0
  generalize bitAt s.w1 j = b1
  generalize bitAt s.w2 j = b2
  generalize bitAt s.w3 j = b3
  revert b0 b1 b2 b3
  decide

/-! ## Tables on blocks -/

/-- One step of `gather`. -/
def gatherOne (m : Quad) (t : UInt32) (acc : Quad) : Quad :=
  ⟨acc.w0 ||| (m.w0 &&& t), acc.w1 ||| (m.w1 &&& t), acc.w2 ||| (m.w2 &&& t),
    acc.w3 ||| (m.w3 &&& t)⟩

theorem gather_cons (m : Quad) (t : UInt32) (ms : List Quad) (ts : List UInt32) (acc : Quad) :
    gather (m :: ms) (t :: ts) acc = gather ms ts (gatherOne m t acc) := rfl

theorem bitAt_join (u m t : UInt32) (j : Nat) :
    bitAt (u ||| (m &&& t)) j = (bitAt u j || (bitAt m j && bitAt t j)) := by
  simp [bitAt]

theorem bitsAt_gatherOne_of_unmarked {t : UInt32} {j : Nat} (ht : bitAt t j = false)
    (m acc : Quad) :
    bitsAt (gatherOne m t acc) j = bitsAt acc j := by
  simp only [bitsAt, gatherOne, bitAt_join, ht, Bool.and_false, Bool.or_false]

theorem bitsAt_gatherOne_of_marked {t : UInt32} {j : Nat} (ht : bitAt t j = true) (m : Quad)
    {acc : Quad} (hacc : bitsAt acc j = nibble 0) : bitsAt (gatherOne m t acc) j = bitsAt m j := by
  simp only [bitsAt, nibble, Nat.zero_testBit, List.cons.injEq] at hacc
  simp only [bitsAt, gatherOne, bitAt_join, ht, hacc, Bool.and_true, Bool.false_or]

theorem bitsAt_gather_of_unmarked (j : Nat) :
    ∀ (ms : List Quad) (ts : List UInt32) (acc : Quad), (∀ t ∈ ts, bitAt t j = false) →
      bitsAt (gather ms ts acc) j = bitsAt acc j
  | [], _, _, _ => rfl
  | _ :: _, [], _, _ => rfl
  | m :: ms, t :: ts, acc, h => by
    rw [gather_cons,
      bitsAt_gather_of_unmarked j ms ts _ fun u hu => h u (List.mem_cons_of_mem t hu),
      bitsAt_gatherOne_of_unmarked (h t List.mem_cons_self)]

/-- The one mark over column `j` picks the mask. -/
theorem bitsAt_gather (j : Nat) :
    ∀ (v : Nat) (ms : List Quad) (ts : List UInt32) (acc : Quad), v < ms.length →
      onlyAt v (ts.map (bitAt · j)) = true → bitsAt acc j = nibble 0 →
      bitsAt (gather ms ts acc) j = bitsAt (ms.getD v default) j
  | _, [], _, _, hv, _, _ => by simp at hv
  | 0, _ :: _, [], _, _, h, _ => by simp [onlyAt] at h
  | _ + 1, _ :: _, [], _, _, h, _ => by simp [onlyAt] at h
  | 0, m :: ms, t :: ts, acc, _, h, hacc => by
    simp only [List.map_cons, onlyAt, Bool.and_eq_true, List.all_map, List.all_eq_true,
      Function.comp_apply, Bool.not_eq_true'] at h
    rw [gather_cons, bitsAt_gather_of_unmarked j ms ts _ h.2, bitsAt_gatherOne_of_marked h.1 m hacc]
    rfl
  | v + 1, m :: ms, t :: ts, acc, hv, h, hacc => by
    simp only [List.map_cons, onlyAt, Bool.and_eq_true, Bool.not_eq_true'] at h
    rw [← bitsAt_gatherOne_of_unmarked h.1 m] at hacc
    rw [gather_cons, bitsAt_gather j v ms ts _ (Nat.lt_of_succ_lt_succ hv) h.2 hacc]
    rfl

theorem bitAt_spread (value n : Nat) {j : Nat} (hj : j < 32) :
    bitAt (spread value n) j = value.testBit n := by
  have hones : (0xffffffff : UInt32).toBitVec = BitVec.allOnes 32 := by decide
  rw [spread]
  split_ifs with h
  · rw [bitAt, hones, BitVec.getLsbD_allOnes, decide_eq_true hj, h]
  · rw [Bool.not_eq_true] at h
    rw [h]
    exact BitVec.getLsbD_zero

/-- Every column goes through the table. -/
theorem bitsAt_substitute {box : Box} (hbox : box.length = 16) (s : Quad) {j : Nat} (hj : j < 32) :
    bitsAt (substitute box.masks s) j = nibble (box.getD (columnValue (bitsAt s j)) 0) := by
  have hv : columnValue (bitsAt s j) < box.length := by
    rw [hbox]
    exact (columnValue_bitsAt s j).1
  have hzero : bitsAt ⟨0, 0, 0, 0⟩ j = nibble 0 := by
    simp [bitsAt, bitAt, nibble]
  have hmask : box.masks.getD (columnValue (bitsAt s j)) default =
      ⟨spread (box.getD (columnValue (bitsAt s j)) 0) 0,
        spread (box.getD (columnValue (bitsAt s j)) 0) 1,
        spread (box.getD (columnValue (bitsAt s j)) 0) 2,
        spread (box.getD (columnValue (bitsAt s j)) 0) 3⟩ := by
    simp only [Box.masks, List.getD_eq_getElem?_getD, List.getElem?_map,
      List.getElem?_eq_getElem hv, Option.map_some, Option.getD_some]
  rw [substitute, bitsAt_gather j _ _ _ _ (by rwa [Box.masks, List.length_map])
    (minterms_marked s hj) hzero, hmask]
  simp only [bitsAt, bitAt_spread _ _ hj, nibble]

/-- The second table sends back what the first sends away. -/
def Undoes (other box : Box) : Prop :=
  box.length = 16 ∧ other.length = 16 ∧
    ∀ v < 16, box.getD v 0 < 16 ∧ other.getD (box.getD v 0) 0 = v

instance (other box : Box) : Decidable (Undoes other box) :=
  inferInstanceAs (Decidable (box.length = 16 ∧ other.length = 16 ∧
    ∀ v < 16, box.getD v 0 < 16 ∧ other.getD (box.getD v 0) 0 = v))

theorem substitute_substitute {box other : Box} (h : Undoes other box) (s : Quad) :
    substitute other.masks (substitute box.masks s) = s := by
  obtain ⟨hbox, hother, hinv⟩ := h
  refine quad_ext fun j hj => ?_
  obtain ⟨hv, hback⟩ := columnValue_bitsAt s j
  obtain ⟨hlt, hvalue⟩ := hinv _ hv
  rw [bitsAt_substitute hother _ hj, bitsAt_substitute hbox _ hj, columnValue_nibble _ hlt, hvalue,
    hback]

theorem boxes_inverse : ∀ box ∈ boxes, Undoes box.inverse box ∧ Undoes box box.inverse := by
  decide +kernel

theorem roundMasks_eq (n : Nat) : ∃ box ∈ boxes,
    roundMasks forwardMasks n = Box.masks box ∧ roundMasks backwardMasks n = box.inverse.masks := by
  have hn : n % 8 < boxes.length := Nat.mod_lt n (by decide)
  refine ⟨boxes[n % 8], List.getElem_mem hn, ?_, ?_⟩
  · simp only [roundMasks, forwardMasks, Array.getD_eq_getD_getElem?, List.getElem?_toArray,
      List.getElem?_map, List.getElem?_eq_getElem hn, Option.map_some, Option.getD_some]
  · simp only [roundMasks, backwardMasks, Array.getD_eq_getD_getElem?, List.getElem?_toArray,
      List.getElem?_map, List.getElem?_eq_getElem hn, Option.map_some, Option.getD_some]

theorem backward_forward (n : Nat) (s : Quad) :
    substitute (roundMasks backwardMasks n) (substitute (roundMasks forwardMasks n) s) = s := by
  obtain ⟨box, hbox, hf, hb⟩ := roundMasks_eq n
  rw [hf, hb, substitute_substitute (boxes_inverse box hbox).1]

theorem forward_backward (n : Nat) (s : Quad) :
    substitute (roundMasks forwardMasks n) (substitute (roundMasks backwardMasks n) s) = s := by
  obtain ⟨box, hbox, hf, hb⟩ := roundMasks_eq n
  rw [hf, hb, substitute_substitute (boxes_inverse box hbox).2]

/-! ## The mix and the rounds -/

theorem xor_pair_cancel (a b c : UInt32) : a ^^^ b ^^^ c ^^^ b ^^^ c = a := by
  rw [UInt32.xor_assoc (a ^^^ b ^^^ c), UInt32.xor_assoc a b c, UInt32.xor_assoc, UInt32.xor_self,
    UInt32.xor_zero]

theorem unmix_mix (s : Quad) : unmix (mix s) = s := by
  simp (disch := decide) only [mix, unmix, rotateRight_rotateLeft, xor_pair_cancel]

theorem mix_unmix (s : Quad) : mix (unmix s) = s := by
  simp (disch := decide) only [mix, unmix, rotateLeft_rotateRight, xor_pair_cancel]

theorem decryptRounds_encryptRounds :
    ∀ (n : Nat) (ks : List Quad) (s : Quad), decryptRounds n ks (encryptRounds n ks s) = s
  | _, [], _ => rfl
  | _, [k], s => Quad.xor_xor s k
  | n, [k, last], s => by
    rw [encryptRounds, decryptRounds, Quad.xor_xor, backward_forward, Quad.xor_xor]
  | n, k :: l :: m :: ks, s => by
    rw [encryptRounds, decryptRounds, decryptRounds_encryptRounds (n + 1) (l :: m :: ks), unmix_mix,
      backward_forward, Quad.xor_xor]
    all_goals simp

theorem encryptRounds_decryptRounds :
    ∀ (n : Nat) (ks : List Quad) (s : Quad), encryptRounds n ks (decryptRounds n ks s) = s
  | _, [], _ => rfl
  | _, [k], s => Quad.xor_xor s k
  | n, [k, last], s => by
    rw [encryptRounds, decryptRounds, Quad.xor_xor, forward_backward, Quad.xor_xor]
  | n, k :: l :: m :: ks, s => by
    rw [encryptRounds, decryptRounds, Quad.xor_xor, forward_backward, mix_unmix,
      encryptRounds_decryptRounds (n + 1) (l :: m :: ks)]
    all_goals simp

theorem lawful : cipher.Lawful where
  length_encrypt _ _ _ _ := Quad.length_toBytes _
  length_decrypt _ _ _ _ := Quad.length_toBytes _
  decrypt_encrypt key block _ hb := by
    change (decryptRounds 0 _
      (.ofBytes (encryptRounds 0 (roundKeys key) (.ofBytes block)).toBytes)).toBytes = _
    rw [Quad.ofBytes_toBytes, decryptRounds_encryptRounds, Quad.toBytes_ofBytes hb]
  encrypt_decrypt key block _ hb := by
    change (encryptRounds 0 _
      (.ofBytes (decryptRounds 0 (roundKeys key) (.ofBytes block)).toBytes)).toBytes = _
    rw [Quad.ofBytes_toBytes, encryptRounds_decryptRounds, Quad.toBytes_ofBytes hb]

end SealedText.Serpent
