import SealedText.Cipher.Mac
import SealedText.Proofs.ChainInverse

/-!
# The tag of a message

A running chain that has taken a message, in whatever pieces, holds the state after some whole
blocks of it and has the rest in its buffer (`Mac.After`). The buffer never grows past one block,
and once a byte has come it is never empty (`extend_of_after`), so `finish` has the last block left:
it fills it up with zeros, and what comes out is `Mac.tag`, the chain over the message filled up to
whole blocks (`finish_of_after`). With a lawful cipher of at least eight bytes a block, and a key
that fits, every message so has a tag of eight bytes (`exists_macOf`).
-/

namespace SealedText

/-- On blocks of `n` bytes the engine succeeds, and its output is a function of the block. -/
def Engine.Encrypts (n : Nat) (encrypt : Bytes → Bytes) (e : Engine) : Prop :=
  ∀ block : Bytes, block.length = n →
    e.process block = .ok (encrypt block) ∧ (encrypt block).length = n

namespace Mac

/-- The least positive multiple of `n` that is not below a length. -/
def wholeLength (n length : Nat) : Nat := (max length 1 + (n - 1)) / n * n

/-- A message with zeros at its end, up to a positive whole number of blocks. -/
def filled (n : Nat) (message : Bytes) : Bytes :=
  message ++ List.replicate (wholeLength n message.length - message.length) 0

/-- The state after some blocks. Each is added to the state, which is then encrypted. -/
def chain (encrypt : Bytes → Bytes) (n : Nat) (blocks : List Bytes) : Bytes :=
  blocks.foldl (fun state block => encrypt (state.xor block)) (List.replicate n 0)

def tag (encrypt : Bytes → Bytes) (n : Nat) (message : Bytes) : Bytes :=
  (chain encrypt n (blocksOf n (filled n message))).take tagSize

/-- The chain has taken the message `seen`. -/
structure After (n : Nat) (encrypt : Bytes → Bytes) (seen : Bytes) (m : Mac) : Prop where
  engine : m.engine.Encrypts n encrypt
  absorbed : ∃ blocks : List Bytes, (∀ b ∈ blocks, b.length = n) ∧
    m.state = chain encrypt n blocks ∧ seen = blocks.flatten ++ m.buffer
  buffer : m.buffer.length ≤ n

variable {n : Nat} {encrypt : Bytes → Bytes} {seen : Bytes} {m : Mac}

/-! ## Whole blocks -/

theorem isLeast_wholeLength (hn : 0 < n) (length : Nat) :
    IsLeast {whole | n ∣ whole ∧ 0 < whole ∧ length ≤ whole} (wholeLength n length) := by
  have hdiv := Nat.div_add_mod (max length 1 + (n - 1)) n
  have hmod := Nat.mod_lt (max length 1 + (n - 1)) hn
  unfold wholeLength
  generalize (max length 1 + (n - 1)) / n = q at hdiv ⊢
  rw [Nat.mul_comm] at hdiv
  refine ⟨⟨Nat.dvd_mul_left n q, by omega, by omega⟩, ?_⟩
  rintro whole ⟨⟨k, rfl⟩, hpos, hle⟩
  have hlt : q * n < (k + 1) * n := by
    rw [Nat.add_one_mul, Nat.mul_comm k n]
    omega
  rw [Nat.mul_comm n k]
  exact Nat.mul_le_mul_right n (Nat.le_of_lt_succ (Nat.lt_of_mul_lt_mul_right hlt))

/-- The last block of a message may be full; only that of the empty message is empty. -/
theorem wholeLength_eq {k r : Nat} (hr : r ≤ n) (hlast : r = 0 → k = 0) (hn : 0 < n) :
    wholeLength n (k * n + r) = k * n + n := by
  have hq : (max (k * n + r) 1 + (n - 1)) / n = k + 1 := by
    rcases Nat.eq_zero_or_pos r with rfl | hpos
    · obtain rfl := hlast rfl
      refine Nat.div_eq_of_lt_le ?_ ?_ <;> omega
    · refine Nat.div_eq_of_lt_le ?_ ?_ <;> simp only [Nat.add_one_mul] <;> omega
  rw [wholeLength, hq, Nat.add_one_mul]

theorem blocksOf_filled (hn : 0 < n) {blocks : List Bytes} (hblocks : ∀ b ∈ blocks, b.length = n)
    {last : Bytes} (hle : last.length ≤ n) (hlast : last = [] → blocks.flatten = []) :
    blocksOf n (filled n (blocks.flatten ++ last)) =
      blocks ++ [last ++ List.replicate (n - last.length) 0] := by
  have hlen : (blocks.flatten ++ last).length = blocks.length * n + last.length := by
    rw [List.length_append, length_flatten_of_length hblocks]
  have hwhole : wholeLength n (blocks.flatten ++ last).length = blocks.length * n + n := by
    rw [hlen]
    refine wholeLength_eq hle (fun hzero => ?_) hn
    have hnil := congrArg List.length (hlast (List.eq_nil_of_length_eq_zero hzero))
    rw [length_flatten_of_length hblocks, List.length_nil] at hnil
    exact (Nat.mul_eq_zero.1 hnil).resolve_right hn.ne'
  have hfilled : filled n (blocks.flatten ++ last) =
      (blocks ++ [last ++ List.replicate (n - last.length) 0]).flatten := by
    have hzeros : blocks.length * n + n - (blocks.length * n + last.length) = n - last.length := by
      omega
    rw [filled, hwhole, hlen, hzeros]
    simp
  rw [hfilled]
  refine blocksOf_flatten hn _ fun b hb => ?_
  rcases List.mem_append.1 hb with hb | hb
  · exact hblocks b hb
  · rw [List.mem_singleton.1 hb, List.length_append, List.length_replicate]
    omega

theorem chain_concat (blocks : List Bytes) (block : Bytes) :
    chain encrypt n (blocks ++ [block]) = encrypt ((chain encrypt n blocks).xor block) := by
  simp [chain]

theorem length_chain {e : Engine} (h : e.Encrypts n encrypt) {blocks : List Bytes}
    (hblocks : ∀ b ∈ blocks, b.length = n) : (chain encrypt n blocks).length = n := by
  induction blocks using List.reverseRecOn with
  | nil => exact List.length_replicate
  | append_singleton blocks block ih =>
    obtain ⟨hblocks, hblock⟩ := List.forall_mem_append.1 hblocks
    rw [chain_concat]
    refine (h _ ?_).2
    rw [Bytes.length_xor, ih hblocks, hblock block (List.mem_singleton_self block), Nat.min_self]

/-! ## The running chain -/

theorem length_state_of_after (h : After n encrypt seen m) : m.state.length = n := by
  obtain ⟨blocks, hblocks, hstate, -⟩ := h.absorbed
  rw [hstate, length_chain h.engine hblocks]

theorem absorbBuffer_of_full (h : m.engine.Encrypts n encrypt) {blocks : List Bytes}
    (hblocks : ∀ b ∈ blocks, b.length = n) (hstate : m.state = chain encrypt n blocks)
    (hfull : m.buffer.length = n) :
    m.absorbBuffer =
      .ok { m with state := chain encrypt n (blocks ++ [m.buffer]), buffer := [] } := by
  have hlen : (m.state.xor m.buffer).length = n := by
    rw [Bytes.length_xor, hstate, length_chain h hblocks, hfull, Nat.min_self]
  rw [absorbBuffer, (h _ hlen).1, ok_bind, chain_concat, ← hstate]
  rfl

/-- A full buffer is absorbed, and a chain with room in its buffer stays as it is. -/
theorem makeRoom_of_after (hn : 0 < n) (h : After n encrypt seen m) :
    ∃ m₁, m.makeRoom = .ok m₁ ∧ After n encrypt seen m₁ ∧ m₁.buffer.length < n := by
  obtain ⟨blocks, hblocks, hstate, hseen⟩ := h.absorbed
  unfold makeRoom
  rw [length_state_of_after h]
  split_ifs with hfull
  · refine ⟨_, absorbBuffer_of_full h.engine hblocks hstate hfull,
      ⟨h.engine, ⟨blocks ++ [m.buffer], ?_, rfl, ?_⟩, Nat.zero_le n⟩, hn⟩
    · simpa [or_imp, forall_and] using ⟨hblocks, hfull⟩
    · simp [hseen]
  · have hle := h.buffer
    exact ⟨m, rfl, h, by omega⟩

/-- Another piece is taken whatever its length and however full the buffer is. -/
theorem extend_of_after (hn : 0 < n) (piece : Bytes) {seen : Bytes} {m : Mac}
    (h : After n encrypt seen m) (hempty : m.buffer = [] → seen = []) :
    ∃ m₁, m.extend piece = .ok m₁ ∧ After n encrypt (seen ++ piece) m₁ ∧
      (m₁.buffer = [] → seen ++ piece = []) := by
  match piece with
  | [] =>
    rw [extend, List.append_nil]
    exact ⟨m, rfl, h, hempty⟩
  | b :: rest =>
    obtain ⟨m₁, hroom, h₁, hlt⟩ := makeRoom_of_after hn h
    obtain ⟨blocks, hblocks, hstate, hseen⟩ := h₁.absorbed
    have htaken : After n encrypt (seen ++ b :: rest.take (n - m₁.buffer.length - 1))
        { m₁ with buffer := m₁.buffer ++ b :: rest.take (n - m₁.buffer.length - 1) } := by
      refine ⟨h₁.engine, ⟨blocks, hblocks, hstate, ?_⟩, ?_⟩
      · rw [hseen, List.append_assoc]
      · simp only [List.length_append, List.length_cons, List.length_take]
        omega
    obtain ⟨m₂, hextend, h₂, hempty₂⟩ :=
      extend_of_after hn (rest.drop (n - m₁.buffer.length - 1)) htaken (by simp)
    rw [List.append_assoc, List.cons_append, List.take_append_drop] at h₂ hempty₂
    refine ⟨m₂, ?_, h₂, hempty₂⟩
    rw [extend, hroom, ok_bind]
    simp only [length_state_of_after h₁]
    exact hextend
termination_by piece.length
decreasing_by simp only [List.length_drop, List.length_cons]; omega

theorem finish_of_after (hn : 0 < n) (h : After n encrypt seen m)
    (hempty : m.buffer = [] → seen = []) : m.finish = .ok (tag encrypt n seen) := by
  obtain ⟨blocks, hblocks, hstate, hseen⟩ := h.absorbed
  have hlen := length_state_of_after h
  have hle := h.buffer
  have hfull : (m.buffer ++ List.replicate (n - m.buffer.length) 0).length = n := by
    rw [List.length_append, List.length_replicate]
    omega
  have hblocksOf : blocksOf n (filled n seen) =
      blocks ++ [m.buffer ++ List.replicate (n - m.buffer.length) 0] := by
    rw [hseen]
    refine blocksOf_filled hn hblocks hle fun hnil => ?_
    have hseen' := hempty hnil
    rw [hseen] at hseen'
    exact (List.append_eq_nil_iff.1 hseen').1
  have habsorb := absorbBuffer_of_full
    (m := { m with buffer := m.buffer ++ List.replicate (n - m.buffer.length) 0 })
    h.engine hblocks hstate hfull
  unfold finish
  simp only [hlen, habsorb, ok_bind]
  rw [tag, hblocksOf]
  rfl

theorem start_of_keyedWith {fresh e : Engine} {key : Bytes}
    (hkey : fresh.keyedWith .encrypting key = .ok e) (h : e.Encrypts fresh.blockSize encrypt) :
    ∃ m, Mac.start fresh key = .ok m ∧ After fresh.blockSize encrypt [] m := by
  refine ⟨{ engine := e, state := List.replicate e.blockSize 0, buffer := [] }, ?_,
    h, ⟨[], by simp, ?_, rfl⟩, Nat.zero_le _⟩
  · rw [start, hkey]
    rfl
  · rw [Engine.blockSize_of_keyedWith hkey]
    rfl

/-- Zeros fill a message up to the least positive whole number of blocks. -/
theorem filled_spec (hn : 0 < n) (message : Bytes) :
    IsLeast {whole | n ∣ whole ∧ 0 < whole ∧ message.length ≤ whole} (filled n message).length ∧
      ∀ b ∈ blocksOf n (filled n message), b.length = n := by
  have hleast := isLeast_wholeLength hn message.length
  obtain ⟨hdvd, -, hle⟩ := hleast.1
  have hlen : (filled n message).length = wholeLength n message.length := by
    rw [filled, List.length_append, List.length_replicate, Nat.add_sub_cancel' hle]
  rw [hlen]
  refine ⟨hleast, length_of_mem_blocksOf hn ?_⟩
  rw [hlen]
  exact Nat.mod_eq_zero_of_dvd hdvd

theorem length_tag {e : Engine} (h : e.Encrypts n encrypt) (hn : tagSize ≤ n) (message : Bytes) :
    (tag encrypt n message).length = tagSize := by
  have hpos : 0 < n := Nat.lt_of_lt_of_le (by decide) hn
  rw [tag, List.length_take, length_chain h (filled_spec hpos message).2]
  omega

end Mac

theorem macOf_eq {fresh e : Engine} {encrypt : Bytes → Bytes} {key : Bytes}
    (hn : 0 < fresh.blockSize) (hkey : fresh.keyedWith .encrypting key = .ok e)
    (h : e.Encrypts fresh.blockSize encrypt) (message : Bytes) :
    macOf fresh key message = .ok (Mac.tag encrypt fresh.blockSize message) := by
  obtain ⟨m, hstart, hm⟩ := Mac.start_of_keyedWith hkey h
  obtain ⟨m₁, hextend, hm₁, hempty⟩ := Mac.extend_of_after hn message hm fun _ => rfl
  rw [macOf, hstart, ok_bind, hextend, ok_bind, Mac.finish_of_after hn hm₁ hempty]
  rfl

/-! ## Lawful ciphers -/

theorem Engine.encrypts_of_inverse {n : Nat} {enc dec : Engine} (h : Engine.Inverse n enc dec) :
    enc.Encrypts n fun block => (enc.run block).1 := by
  intro block hb
  obtain ⟨out, hlen, hout, -⟩ := h.undo block hb
  rcases hrun : enc.run block with ⟨out₁, _ | err⟩ <;> rw [process, hrun] at hout <;> cases hout
  simp [process, hrun, hlen]

/-- Keyed engines of lawful leaves encrypt by the composition of the keyed leaves. -/
theorem Engine.encrypts_of_keyedWith {fresh e : Engine} {key : Bytes}
    (hl : ∀ c ∈ fresh.leaves, c.Lawful ∧ c.blockSize = fresh.blockSize)
    (h : fresh.keyedWith .encrypting key = .ok e) :
    e.Encrypts fresh.blockSize (composition .encrypting (fresh.keyedLeaves key)) := by
  intro block hb
  have hset := setKey_of_keyedWith h
  refine ⟨process_of_setKey hl hset hb, ?_⟩
  exact length_composition_keyedLeaves .encrypting (fun c hc => ⟨(hl c hc).1.inPlace, (hl c hc).2⟩)
    (holds_of_setKey .encrypting hset).1 hb

theorem exists_macOf {fresh : Engine} (h : fresh.Lawful) (hn : tagSize ≤ fresh.blockSize)
    {key : Bytes} (hk : key.length = fresh.keySize) (message : Bytes) :
    ∃ tag, macOf fresh key message = .ok tag ∧ tag.length = tagSize := by
  obtain ⟨enc, dec, henc, -, -, -, hinv⟩ := h.exists_keyed hk
  have hencrypts := Engine.encrypts_of_inverse hinv
  have hpos : 0 < fresh.blockSize := Nat.lt_of_lt_of_le (by decide) hn
  exact ⟨_, macOf_eq hpos henc hencrypts message, Mac.length_tag hencrypts hn message⟩

theorem length_of_macOf {fresh : Engine} (h : fresh.Lawful) (hn : tagSize ≤ fresh.blockSize)
    {key message tag : Bytes} (hk : key.length = fresh.keySize)
    (htag : macOf fresh key message = .ok tag) : tag.length = tagSize := by
  obtain ⟨tag₁, htag₁, hlen⟩ := exists_macOf h hn hk message
  rw [htag] at htag₁
  cases htag₁
  exact hlen

end SealedText
