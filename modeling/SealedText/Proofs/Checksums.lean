import SealedText.Checksum
import SealedText.Proofs.EnvelopeExact

/-!
# Checksums of shortened secrets

A frame is accepted if the checksum behind the secret is that of the secret, so a secret that lost
bytes at its end passes with the old checksum exactly if it has the same one (`verify?_append`).
The checksum is the start of the last block of a chain, and two things make that possible.

* The last block is filled up with zeros. So zero bytes at the end of a secret that are in its last
  block do not count; every other loss inside the last block changes what the chain ends with
  (`Mac.lastBlock_eq_iff`).
* A checksum is half a block. So when a whole last block is lost, one in `2 ^ 64` of all blocks that
  may have stood there leads to the checksum of what is left (`Mac.ncard_last`).
-/

namespace SealedText

/-! ## The end of a chain -/

/-- Two functions that undo each other on blocks of `n` bytes. -/
structure UndoOn (n : Nat) (encrypt decrypt : Bytes → Bytes) : Prop where
  length_encrypt : ∀ b : Bytes, b.length = n → (encrypt b).length = n
  length_decrypt : ∀ b : Bytes, b.length = n → (decrypt b).length = n
  decrypt_encrypt : ∀ b : Bytes, b.length = n → decrypt (encrypt b) = b
  encrypt_decrypt : ∀ b : Bytes, b.length = n → encrypt (decrypt b) = b

/-- Under one state, two blocks that are encrypted alike are the same. -/
theorem UndoOn.eq_of_encrypt {n : Nat} {encrypt decrypt : Bytes → Bytes}
    (h : UndoOn n encrypt decrypt) {state a b : Bytes} (hstate : state.length = n)
    (ha : a.length = n) (hb : b.length = n)
    (heq : encrypt (state.xor a) = encrypt (state.xor b)) : a = b := by
  have hmask (x : Bytes) (hx : x.length = n) : (state.xor x).length = n := by
    rw [Bytes.length_xor, hstate, hx, Nat.min_self]
  have hback := congrArg decrypt heq
  rw [h.decrypt_encrypt _ (hmask a ha), h.decrypt_encrypt _ (hmask b hb)] at hback
  have hlist := congrArg state.xor hback
  rwa [Bytes.xor_xor_left (by omega), Bytes.xor_xor_left (by omega)] at hlist

namespace Mac

variable {n : Nat} {encrypt decrypt : Bytes → Bytes}

/-- What the chain over a message ends with, before it is cut to a tag. -/
def lastBlock (encrypt : Bytes → Bytes) (n : Nat) (message : Bytes) : Bytes :=
  chain encrypt n (blocksOf n (filled n message))

/-- A message is whole blocks and a last one, which is empty for the empty message only. -/
theorem exists_split (hn : 0 < n) (message : Bytes) :
    ∃ (blocks : List Bytes) (last : Bytes), message = blocks.flatten ++ last ∧
      (∀ b ∈ blocks, b.length = n) ∧ last.length ≤ n ∧ (last = [] → blocks = []) := by
  have hdiv := Nat.div_add_mod (message.length - 1) n
  have hmod := Nat.mod_lt (message.length - 1) hn
  generalize (message.length - 1) / n = q at hdiv
  have hfront : (message.take (n * q)).length = n * q := by
    rw [List.length_take]
    omega
  refine ⟨blocksOf n (message.take (n * q)), message.drop (n * q), ?_, ?_, ?_, fun hnil => ?_⟩
  · rw [flatten_blocksOf, List.take_append_drop]
  · refine length_of_mem_blocksOf hn ?_
    rw [hfront, Nat.mul_mod_right]
  · rw [List.length_drop]
    omega
  · have hlen := congrArg List.length hnil
    rw [List.length_drop, List.length_nil] at hlen
    have hempty : message.take (n * q) = [] := List.eq_nil_of_length_eq_zero (by omega)
    rw [hempty, blocksOf_nil]

theorem lastBlock_append (hn : 0 < n) {blocks : List Bytes} (hblocks : ∀ b ∈ blocks, b.length = n)
    {last : Bytes} (hle : last.length ≤ n) (hlast : last = [] → blocks = []) :
    lastBlock encrypt n (blocks.flatten ++ last) =
      encrypt ((chain encrypt n blocks).xor (last ++ List.replicate (n - last.length) 0)) := by
  have hflat : last = [] → blocks.flatten = [] := by
    intro hnil
    rw [hlast hnil, List.flatten_nil]
  rw [lastBlock, blocksOf_filled hn hblocks hle hflat, chain_concat]

theorem length_last_le (hn : 0 < n) {blocks : List Bytes} (hblocks : ∀ b ∈ blocks, b.length = n)
    {last lost : Bytes} (hle : last.length ≤ n) (hlast : last = [] → blocks = [])
    (hsame : wholeLength n (blocks.flatten ++ last ++ lost).length =
      wholeLength n (blocks.flatten ++ last).length) : (last ++ lost).length ≤ n := by
  have hflat := length_flatten_of_length hblocks
  have hlong := (isLeast_wholeLength hn (blocks.flatten ++ last ++ lost).length).1.2.2
  have hwhole : wholeLength n (blocks.flatten ++ last).length = blocks.length * n + n := by
    rw [List.length_append, hflat]
    refine wholeLength_eq hle (fun hzero => ?_) hn
    rw [hlast (List.eq_nil_of_length_eq_zero hzero), List.length_nil]
  rw [hsame, hwhole, List.append_assoc, List.length_append, hflat] at hlong
  omega

/-- Bytes lost inside the last block leave the end of the chain as it is only if all are zero. -/
theorem lastBlock_eq_iff (hn : 0 < n) {e : Engine} (he : e.Encrypts n encrypt)
    (h : UndoOn n encrypt decrypt) {message lost : Bytes}
    (hsame : wholeLength n (message ++ lost).length = wholeLength n message.length) :
    lastBlock encrypt n message = lastBlock encrypt n (message ++ lost) ↔ ∀ b ∈ lost, b = 0 := by
  obtain ⟨blocks, last, rfl, hblocks, hle, hlast⟩ := exists_split hn message
  have hlong := length_last_le hn hblocks hle hlast hsame
  have hlast' : last ++ lost = [] → blocks = [] :=
    fun hnil => hlast (List.append_eq_nil_iff.1 hnil).1
  have hstate := length_chain he hblocks
  have hzeros : n - last.length = lost.length + (n - (last ++ lost).length) := by
    rw [List.length_append] at hlong ⊢
    omega
  rw [List.append_assoc, lastBlock_append hn hblocks hle hlast,
    lastBlock_append hn hblocks hlong hlast', hzeros, List.replicate_add, List.append_assoc]
  generalize n - (last ++ lost).length = room at hzeros
  constructor
  · intro heq
    have hfill : last ++ (List.replicate lost.length 0 ++ List.replicate room 0) =
        last ++ (lost ++ List.replicate room 0) := by
      refine h.eq_of_encrypt hstate ?_ ?_ heq
      all_goals
        simp only [List.length_append, List.length_replicate]
        omega
    have hlost := List.append_cancel_right (List.append_cancel_left hfill)
    intro b hb
    rw [← hlost] at hb
    exact List.eq_of_mem_replicate hb
  · intro hall
    rw [← List.eq_replicate_of_mem hall]

/-- A block leads to a tag exactly if it comes from one of the ways to complete the tag to a block. -/
theorem take_encrypt_iff (h : UndoOn n encrypt decrypt) {state tag last : Bytes}
    (hstate : state.length = n) (htag : tag.length ≤ n) (hlen : last.length = n) :
    (encrypt (state.xor last)).take tag.length = tag ↔
      ∃ rest : Bytes, rest.length = n - tag.length ∧ state.xor (decrypt (tag ++ rest)) = last := by
  constructor
  · intro htake
    have hmask : (state.xor last).length = n := by
      rw [Bytes.length_xor, hstate, hlen, Nat.min_self]
    have hout := h.length_encrypt _ hmask
    refine ⟨(encrypt (state.xor last)).drop tag.length, by rw [List.length_drop, hout], ?_⟩
    have hsplit : tag ++ (encrypt (state.xor last)).drop tag.length = encrypt (state.xor last) := by
      conv_lhs => rw [← htake, List.length_take, hout, Nat.min_eq_left htag]
      exact List.take_append_drop ..
    rw [hsplit, h.decrypt_encrypt _ hmask, Bytes.xor_xor_left (by omega)]
  · rintro ⟨rest, hrest, rfl⟩
    have hblock : (tag ++ rest).length = n := by
      rw [List.length_append]
      omega
    rw [Bytes.xor_xor_left (by rw [h.length_decrypt _ hblock, hstate]),
      h.encrypt_decrypt _ hblock, List.take_left]

/-- Of all last blocks, those that lead to a given tag are as many as there are ways to complete the
tag to a block. -/
theorem ncard_last (h : UndoOn n encrypt decrypt) {state tag : Bytes} (hstate : state.length = n)
    (htag : tag.length ≤ n) :
    {last : Bytes | last.length = n ∧ (encrypt (state.xor last)).take tag.length = tag}.ncard =
      256 ^ (n - tag.length) := by
  have hfull : ∀ rest : Bytes, rest.length = n - tag.length → (tag ++ rest).length = n := by
    intro rest hrest
    rw [List.length_append]
    omega
  have hset : {last : Bytes | last.length = n ∧
      (encrypt (state.xor last)).take tag.length = tag} =
        (fun rest => state.xor (decrypt (tag ++ rest))) ''
          {rest : Bytes | rest.length = n - tag.length} := by
    ext last
    constructor
    · rintro ⟨hlen, htake⟩
      exact (take_encrypt_iff h hstate htag hlen).1 htake
    · rintro ⟨rest, hrest, rfl⟩
      have hlen : (state.xor (decrypt (tag ++ rest))).length = n := by
        rw [Bytes.length_xor, h.length_decrypt _ (hfull rest hrest), hstate, Nat.min_self]
      exact ⟨hlen, (take_encrypt_iff h hstate htag hlen).2 ⟨rest, hrest, rfl⟩⟩
  have hinj : Set.InjOn (fun rest => state.xor (decrypt (tag ++ rest)))
      {rest : Bytes | rest.length = n - tag.length} := by
    intro rest hrest other hother heq
    have hback : ∀ rest : Bytes, rest.length = n - tag.length →
        encrypt (state.xor (state.xor (decrypt (tag ++ rest)))) = tag ++ rest := by
      intro rest hrest
      rw [Bytes.xor_xor_left (by rw [h.length_decrypt _ (hfull rest hrest), hstate]),
        h.encrypt_decrypt _ (hfull rest hrest)]
    have hsame := congrArg (fun block => encrypt (state.xor block)) heq
    rw [hback rest hrest, hback other hother] at hsame
    exact List.append_cancel_left hsame
  rw [hset, hinj.ncard_image, Bytes.ncard_ofLength]

end Mac

/-! ## Checksums -/

namespace Checksum

/-- What the standard cipher makes of a block under the key of checksums. -/
def encryptBlock : Bytes → Bytes :=
  Engine.composition .encrypting (Engine.standard.keyedLeaves key)

def decryptBlock : Bytes → Bytes :=
  Engine.composition .decrypting (Engine.standard.keyedLeaves key)

/-- What the chain over a secret ends with. The checksum is its first eight bytes. -/
def lastBlock (secret : Bytes) : Bytes := Mac.lastBlock encryptBlock 16 secret

theorem undoOn_block : UndoOn 16 encryptBlock decryptBlock := by
  have hleaves := Engine.built_standard.lawful_leaves
  have hin : ∀ c ∈ Engine.standard.leaves, c.InPlace ∧ c.blockSize = Engine.standard.blockSize :=
    fun c hc => ⟨(hleaves c hc).1.inPlace, (hleaves c hc).2⟩
  have hkey : key.length = Engine.standard.keySize := List.length_replicate
  constructor
  · exact fun b hb => Engine.length_composition_keyedLeaves .encrypting hin hkey hb
  · exact fun b hb => Engine.length_composition_keyedLeaves .decrypting hin hkey hb
  · exact fun b hb => (Engine.composition_keyedLeaves_inverse hleaves hkey hb).1
  · exact fun b hb => (Engine.composition_keyedLeaves_inverse hleaves hkey hb).2

theorem exists_keyed :
    ∃ e, Engine.standard.keyedWith .encrypting key = .ok e ∧ e.Encrypts 16 encryptBlock := by
  obtain ⟨e, he⟩ := Engine.lawful_standard.keyable .encrypting key List.length_replicate
  exact ⟨e, he, Engine.encrypts_of_keyedWith Engine.built_standard.lawful_leaves he⟩

theorem ofSecret_eq (secret : Bytes) : ofSecret secret = .ok ((lastBlock secret).take tagSize) := by
  obtain ⟨e, hkey, he⟩ := exists_keyed
  have hpos : 0 < Engine.standard.blockSize := by decide
  exact macOf_eq hpos hkey he secret

theorem length_ofSecret (secret : Bytes) : ((lastBlock secret).take tagSize).length = tagSize := by
  obtain ⟨e, -, he⟩ := exists_keyed
  exact Mac.length_tag he (by decide) secret

/-- A frame is accepted exactly if it ends with the checksum of what is in front of it. -/
theorem verify?_append {secret sum : Bytes} (hsum : sum.length = tagSize) :
    verify? (secret ++ sum) =
      if (lastBlock secret).take tagSize = sum then some secret else none := by
  have hfront : (secret ++ sum).length - tagSize = secret.length := by
    rw [List.length_append, hsum, Nat.add_sub_cancel]
  have hlong : ¬ (secret ++ sum).length < tagSize := by
    rw [List.length_append, hsum]
    omega
  rw [verify?, if_neg hlong]
  simp only [hfront, List.take_left, List.drop_left, ofSecret_eq, Envelope.tagsEqual_iff]

theorem verify?_of_attach {secret framed : Bytes} (h : attach secret = .ok framed) :
    verify? framed = some secret := by
  rw [attach, ofSecret_eq] at h
  cases h
  rw [verify?_append (length_ofSecret secret), if_pos rfl]

/-- A loss inside the last block shows in what the chain ends with, unless only zeros are lost. -/
theorem lastBlock_eq_iff {secret lost : Bytes}
    (hsame : Mac.wholeLength 16 (secret ++ lost).length = Mac.wholeLength 16 secret.length) :
    lastBlock secret = lastBlock (secret ++ lost) ↔ ∀ b ∈ lost, b = 0 := by
  obtain ⟨e, -, he⟩ := exists_keyed
  exact Mac.lastBlock_eq_iff (by decide) he undoOn_block hsame

/-- The blocks that lead from whole blocks in front of them to a given checksum. -/
theorem ncard_last {message sum : Bytes} (hwhole : message.length % 16 = 0)
    (hsum : sum.length = tagSize) :
    {last : Bytes | last.length = 16 ∧ (lastBlock (message ++ last)).take tagSize = sum}.ncard =
      2 ^ 64 := by
  obtain ⟨e, -, he⟩ := exists_keyed
  have hblocks : ∀ b ∈ blocksOf 16 message, b.length = 16 :=
    length_of_mem_blocksOf (by decide) hwhole
  have hstate := Mac.length_chain he hblocks
  have hlast : ∀ last : Bytes, last.length = 16 → lastBlock (message ++ last) =
      encryptBlock ((Mac.chain encryptBlock 16 (blocksOf 16 message)).xor last) := by
    intro last hlen
    have hne : last ≠ [] := by
      rintro rfl
      cases hlen
    conv_lhs => rw [← flatten_blocksOf 16 message]
    rw [lastBlock, Mac.lastBlock_append (by decide) hblocks hlen.le fun hnil => absurd hnil hne,
      hlen, Nat.sub_self, List.replicate_zero, List.append_nil]
  have hshort : sum.length ≤ 16 := by
    rw [hsum]
    decide
  have hcount := Mac.ncard_last undoOn_block hstate hshort
  rw [hsum] at hcount
  refine Eq.trans (congrArg Set.ncard (Set.ext fun last => ?_)) hcount
  exact and_congr_right fun hlen => by rw [hlast last hlen]

/-- A secret that lost bytes at its end passes with its old checksum exactly if that is the checksum
of what is left, and as nothing else. A loss inside the last block leaves what the chain ends with
as it is exactly if only zeros are lost. Of the last blocks that may have been lost as a whole,
together with bytes in front of them, exactly `2 ^ 64` go unnoticed. -/
theorem shortened_passes (secret lost : Bytes) :
    (∃ sum left, ofSecret (secret ++ lost) = .ok sum ∧ ofSecret secret = .ok left ∧
        sum = (lastBlock (secret ++ lost)).take 8 ∧ left = (lastBlock secret).take 8 ∧
        verify? (secret ++ sum) = if left = sum then some secret else none) ∧
      (Mac.wholeLength 16 (secret ++ lost).length = Mac.wholeLength 16 secret.length →
        (lastBlock secret = lastBlock (secret ++ lost) ↔ ∀ b ∈ lost, b = 0)) ∧
      ((secret ++ lost).length % 16 = 0 →
        {last : Bytes | last.length = 16 ∧ ∃ sum, ofSecret (secret ++ lost ++ last) = .ok sum ∧
          verify? (secret ++ sum) = some secret}.ncard = 2 ^ 64) := by
  refine ⟨⟨_, _, ofSecret_eq _, ofSecret_eq _, rfl, rfl, verify?_append (length_ofSecret _)⟩,
    lastBlock_eq_iff, fun hwhole => ?_⟩
  refine Eq.trans (congrArg Set.ncard (Set.ext fun last => and_congr_right fun _ => ?_))
    (ncard_last hwhole (length_ofSecret secret))
  constructor
  · rintro ⟨sum, hsum, hverify⟩
    rw [ofSecret_eq] at hsum
    cases hsum
    rw [verify?_append (length_ofSecret _)] at hverify
    split_ifs at hverify with heq
    exact heq.symm
  · intro heq
    exact ⟨_, ofSecret_eq _, by rw [verify?_append (length_ofSecret _), if_pos heq.symm]⟩

/-- Of a secret of two blocks the first is left. -/
theorem half_secret_passes :
    {last : Bytes | last.length = 16 ∧ ∃ sum,
      ofSecret (List.replicate 16 7 ++ [] ++ last) = .ok sum ∧
        verify? (List.replicate 16 7 ++ sum) = some (List.replicate 16 7)}.ncard = 2 ^ 64 :=
  (shortened_passes (List.replicate 16 7) []).2.2 rfl

/-- A zero byte at the end can be lost. -/
theorem lostZero_passes :
    [5] <+: ([5, 0] : Bytes) ∧ [5] ≠ ([5, 0] : Bytes) ∧
      ∃ sum, ofSecret [5, 0] = .ok sum ∧ verify? ([5] ++ sum) = some [5] := by
  refine ⟨List.prefix_append [5] [0], by decide, _, ofSecret_eq [5, 0], ?_⟩
  have hone : Mac.wholeLength 16 ([5] ++ [0] : Bytes).length =
      Mac.wholeLength 16 ([5] : Bytes).length := by decide
  have hsame : lastBlock [5] = lastBlock [5, 0] := (lastBlock_eq_iff hone).2 (by simp)
  rw [verify?_append (length_ofSecret _), hsame, if_pos rfl]

end Checksum

end SealedText
