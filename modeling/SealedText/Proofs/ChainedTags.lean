import SealedText.Proofs.CascadeComposition
import SealedText.Proofs.Tags

/-!
# Tags and ciphertexts are states of one chain

Encrypting by chaining, from an all-zero vector, writes down the state of the chain after each block
(`Engine.chainEncrypt_eq_states`), and a tag is the start of the last state. The padding of a
message of whole blocks is one block of its own, so the tag of such a message stands at the start of
the last block but one of its ciphertext. Every other message has the tag of one of whole blocks,
itself with zeros at its end (`macOf_eq_chained`).
-/

namespace SealedText

namespace Mac

variable {n : Nat} {encrypt : Bytes → Bytes}

/-- The states of a chain, one after each block. -/
def states (encrypt : Bytes → Bytes) (n : Nat) (blocks : List Bytes) : List Bytes :=
  (List.range blocks.length).map fun k => chain encrypt n (blocks.take (k + 1))

theorem states_concat (blocks : List Bytes) (block : Bytes) :
    states encrypt n (blocks ++ [block]) =
      states encrypt n blocks ++ [chain encrypt n (blocks ++ [block])] := by
  rw [states, List.length_append, List.length_singleton, List.range_succ, List.map_append,
    List.map_singleton, List.take_of_length_le (by simp)]
  congr 1
  refine List.map_congr_left fun k hk => ?_
  rw [List.take_append_of_le_length (List.mem_range.1 hk)]

theorem length_of_mem_states {e : Engine} (h : e.Encrypts n encrypt) {blocks : List Bytes}
    (hblocks : ∀ b ∈ blocks, b.length = n) :
    ∀ state ∈ states encrypt n blocks, state.length = n := by
  intro state hstate
  obtain ⟨k, -, rfl⟩ := List.mem_map.1 hstate
  exact length_chain h fun b hb => hblocks b (List.mem_of_mem_take hb)

/-! ## Whole messages -/

theorem wholeLength_of_dvd (hn : 0 < n) {length : Nat} (hdvd : n ∣ length) (hpos : 0 < length) :
    wholeLength n length = length :=
  (isLeast_wholeLength hn length).unique ⟨⟨hdvd, hpos, le_rfl⟩, fun _ h => h.2.2⟩

theorem filled_of_dvd (hn : 0 < n) {message : Bytes} (hdvd : n ∣ message.length)
    (hne : message ≠ []) : filled n message = message := by
  rw [filled, wholeLength_of_dvd hn hdvd (List.length_pos_iff.2 hne), Nat.sub_self,
    List.replicate_zero, List.append_nil]

theorem filled_filled (hn : 0 < n) (message : Bytes) :
    filled n (filled n message) = filled n message := by
  obtain ⟨⟨hdvd, hpos, -⟩, -⟩ := (filled_spec hn message).1
  exact filled_of_dvd hn hdvd (List.length_pos_iff.1 hpos)

theorem tag_filled (hn : 0 < n) (message : Bytes) :
    tag encrypt n (filled n message) = tag encrypt n message := by
  rw [tag, tag, filled_filled hn]

theorem tag_of_dvd (hn : 0 < n) {message : Bytes} (hdvd : n ∣ message.length)
    (hne : message ≠ []) :
    tag encrypt n message = (chain encrypt n (blocksOf n message)).take tagSize := by
  rw [tag, filled_of_dvd hn hdvd hne]

end Mac

/-- The padding of a message of whole blocks is a block of its own. -/
theorem blocksOf_pad {n : Nat} (hn : 0 < n) {message : Bytes} (hdvd : n ∣ message.length) :
    blocksOf n (pad n message) = blocksOf n message ++ [List.replicate n (UInt8.ofNat n)] := by
  have hmod := Nat.mod_eq_zero_of_dvd hdvd
  have hpad : pad n message =
      (blocksOf n message ++ [List.replicate n (UInt8.ofNat n)]).flatten := by
    rw [pad, padLength, hmod, Nat.sub_zero, List.flatten_append, flatten_blocksOf,
      List.flatten_singleton]
  rw [hpad]
  refine blocksOf_flatten hn _ (List.forall_mem_append.2 ⟨length_of_mem_blocksOf hn hmod, ?_⟩)
  simp

/-- After a message of whole blocks the chain goes on for the one block of its padding. -/
theorem Mac.states_pad {n : Nat} (encrypt : Bytes → Bytes) (hn : 0 < n) {message : Bytes}
    (hdvd : n ∣ message.length) (hne : message ≠ []) :
    ∃ front last, states encrypt n (blocksOf n (pad n message)) =
      front ++ [chain encrypt n (blocksOf n message), last] := by
  obtain ⟨front, block, hcut⟩ :=
    (blocksOf n message).eq_nil_or_concat'.resolve_left (blocksOf_ne_nil n hne)
  rw [blocksOf_pad hn hdvd, states_concat, hcut, states_concat, List.append_assoc]
  exact ⟨_, _, rfl⟩

namespace Engine

variable {n : Nat} {encrypt : Bytes → Bytes} {e : Engine}

/-- From the state after some blocks, the ciphertext of more blocks is the states after these. -/
theorem encryptBlocks_chain (h : e.Encrypts n encrypt) :
    ∀ {seen blocks : List Bytes}, (∀ b ∈ seen, b.length = n) → (∀ b ∈ blocks, b.length = n) →
      e.encryptBlocks (Mac.chain encrypt n seen) blocks = .ok ((List.range blocks.length).map
        fun k => Mac.chain encrypt n (seen ++ blocks.take (k + 1)))
  | _, [], _, _ => rfl
  | seen, block :: rest, hseen, hblocks => by
    obtain ⟨hblock, hrest⟩ := List.forall_mem_cons.1 hblocks
    have hmask : (block.xor (Mac.chain encrypt n seen)).length = n := by
      rw [Bytes.length_xor, Mac.length_chain h hseen, hblock, Nat.min_self]
    have hstep : encrypt (block.xor (Mac.chain encrypt n seen)) =
        Mac.chain encrypt n (seen ++ [block]) := by
      rw [Mac.chain_concat, Bytes.xor_comm]
    have hseen₁ : ∀ b ∈ seen ++ [block], b.length = n :=
      List.forall_mem_append.2 ⟨hseen, by simpa using hblock⟩
    have hmore : (List.range (block :: rest).length).map
        (fun k => Mac.chain encrypt n (seen ++ (block :: rest).take (k + 1))) =
          encrypt (block.xor (Mac.chain encrypt n seen)) :: (List.range rest.length).map
            fun k => Mac.chain encrypt n (seen ++ [block] ++ rest.take (k + 1)) := by
      rw [hstep, List.length_cons, List.range_succ_eq_map, List.map_cons, List.map_map]
      simp [Function.comp_def]
    have hnext := encryptBlocks_chain h hseen₁ hrest
    rw [← hstep] at hnext
    rw [hmore]
    exact (encryptBlocks_cons_iff ..).2 ⟨_, _, rfl, (h _ hmask).1, hnext⟩

/-- From an all-zero vector, a ciphertext is the states of the chain over the padded message. -/
theorem chainEncrypt_eq_states (h : e.Encrypts n encrypt) (hsize : e.blockSize = n) (hn : 0 < n)
    (message : Bytes) : e.chainEncrypt (List.replicate n 0) message =
      .ok (Mac.states encrypt n (blocksOf n (pad n message))).flatten := by
  have hblocks := length_of_mem_blocksOf hn (length_pad_mod hn message)
  rw [chainEncrypt_ok_iff, hsize]
  have hchain : e.encryptBlocks (Mac.chain encrypt n []) (blocksOf n (pad n message)) =
      .ok (Mac.states encrypt n (blocksOf n (pad n message))) :=
    encryptBlocks_chain h (by simp) hblocks
  exact ⟨List.length_replicate, _, hchain, rfl⟩

end Engine

/-- For a family of engines with blocks of at least eight bytes, each of which encrypts every block
by a function of the key and the block: the tag of a message of whole blocks is the start of the
last block but one of its ciphertext under the same key and an all-zero vector, and every message
has the tag of the message filled up with zeros to the least positive whole number of blocks. -/
theorem macOf_eq_chained {fresh : Engine} {encrypt : Bytes → Bytes → Bytes}
    (hsize : tagSize ≤ fresh.blockSize)
    (hfamily : ∀ key e, fresh.keyedWith .encrypting key = .ok e →
      e.Encrypts fresh.blockSize (encrypt key))
    {key : Bytes} {e : Engine} (hkey : fresh.keyedWith .encrypting key = .ok e)
    (message : Bytes) :
    (message ≠ [] → fresh.blockSize ∣ message.length → ∃ sealed front block last,
        e.chainEncrypt (List.replicate fresh.blockSize 0) message = .ok sealed ∧
          blocksOf fresh.blockSize sealed = front ++ [block, last] ∧
          (∀ b ∈ front ++ [block, last], b.length = fresh.blockSize) ∧
          macOf fresh key message = .ok (block.take 8)) ∧
      let whole := message ++ List.replicate (Mac.wholeLength fresh.blockSize message.length -
        message.length) 0
      IsLeast {k | fresh.blockSize ∣ k ∧ 0 < k ∧ message.length ≤ k} whole.length ∧
        ∃ tag : Bytes, tag.length = 8 ∧ macOf fresh key message = .ok tag ∧
          macOf fresh key whole = .ok tag := by
  have hn : 0 < fresh.blockSize := Nat.lt_of_lt_of_le (by decide) hsize
  have hencrypts := hfamily key e hkey
  have htag := macOf_eq hn hkey hencrypts
  refine ⟨fun hne hdvd => ?_, (Mac.filled_spec hn message).1, _,
    Mac.length_tag hencrypts hsize message, htag message, ?_⟩
  · obtain ⟨front, last, hstates⟩ := Mac.states_pad (encrypt key) hn hdvd hne
    have hlens := Mac.length_of_mem_states hencrypts
      (length_of_mem_blocksOf hn (length_pad_mod hn message))
    have hseal := Engine.chainEncrypt_eq_states hencrypts (Engine.blockSize_of_keyedWith hkey) hn
      message
    rw [hstates] at hseal hlens
    refine ⟨_, front, _, last, hseal, blocksOf_flatten hn _ hlens, hlens, ?_⟩
    rw [htag, Mac.tag_of_dvd hn hdvd hne]
    rfl
  · rw [← Mac.tag_filled hn message]
    exact htag _

/-- A cascade of masks is such a family. Sixteen bytes encrypt to three blocks of eight, the second
of which is the tag, also of the first nine bytes, since the others are zero. -/
theorem nestedMasks_chained :
    let key : Bytes := [1, 2, 3, 4, 5, 6, 7, 8, 9, 10, 11, 12]
    let message : Bytes := [1, 2, 3, 4, 5, 6, 7, 8, 9, 0, 0, 0, 0, 0, 0, 0]
    let tag : Bytes := [8, 10, 1, 6, 17, 6, 7, 22]
    let sealed := [12, 12, 2, 7, 11, 2, 1, 23] ++ tag ++ [15, 12, 16, 17, 31, 26, 9, 33]
    (Engine.nestedMasks.keyedWith .encrypting key >>=
        (·.chainEncrypt (List.replicate 8 0) message)) = .ok sealed ∧
      macOf Engine.nestedMasks key message = .ok tag ∧
      macOf Engine.nestedMasks key (message.take 9) = .ok tag := by
  intro key message tag sealed
  have hfamily : ∀ key e, Engine.nestedMasks.keyedWith .encrypting key = .ok e →
      e.Encrypts 8 (Engine.composition .encrypting (Engine.nestedMasks.keyedLeaves key)) :=
    fun key e he => Engine.encrypts_of_keyedWith Engine.built_nestedMasks.lawful_leaves he
  obtain ⟨e, hkey⟩ := (Engine.lawful_of_built Engine.built_nestedMasks).keyable .encrypting key rfl
  have hsealed : (Engine.nestedMasks.keyedWith .encrypting key >>=
      (·.chainEncrypt (List.replicate 8 0) message)) = .ok sealed := by
    decide +kernel
  have hwhole : macOf Engine.nestedMasks key message = .ok tag := by
    obtain ⟨found, front, block, last, hseal, hcut, -, htag⟩ :=
      (macOf_eq_chained (by decide) hfamily hkey message).1 (by decide) (by decide)
    rw [hkey, ok_bind] at hsealed
    obtain rfl : found = sealed := Except.ok.inj (hseal.symm.trans hsealed)
    have hblocks : blocksOf 8 sealed =
        [[12, 12, 2, 7, 11, 2, 1, 23]] ++ [tag, [15, 12, 16, 17, 31, 26, 9, 33]] := by
      decide +kernel
    obtain ⟨hblock, -⟩ := List.cons.inj (List.append_inj' (hcut.symm.trans hblocks) rfl).2
    rw [htag, hblock]
    rfl
  obtain ⟨-, found, -, hshort, hlong⟩ :=
    (macOf_eq_chained (by decide) hfamily hkey (message.take 9)).2
  have hfilled : message.take 9 ++ List.replicate (Mac.wholeLength 8 9 - 9) 0 = message := by
    decide
  exact ⟨hsealed, hwhole, hshort.trans (hlong.symm.trans (hfilled ▸ hwhole))⟩

end SealedText
