import SealedText.Proofs.EngineTree

/-!
# Lawful engines

An engine is lawful if every key of its length keys it for both directions, and what the two keyed
engines do to blocks is mutually inverse. That is all that the modes and the envelope need. An
engine built from lawful stages is lawful (`lawful_of_built`), however it is nested.
-/

namespace SealedText

/-- A stage of a lawful cipher that never refuses to be keyed. -/
def Stage.Lawful (s : Stage) : Prop := s.cipher.Lawful ∧ ∀ n, s.refuses n = false

namespace Engine

/-- Two keyed engines that undo each other on blocks of `n` bytes. -/
structure Inverse (n : Nat) (enc dec : Engine) : Prop where
  undo : ∀ block : Bytes, block.length = n →
    ∃ out : Bytes, out.length = n ∧ enc.process block = .ok out ∧ dec.process out = .ok block
  redo : ∀ block : Bytes, block.length = n →
    ∃ out : Bytes, out.length = n ∧ dec.process block = .ok out ∧ enc.process out = .ok block

structure Lawful (e : Engine) : Prop where
  keyable : ∀ direction key, key.length = e.keySize → ∃ e₁, e.keyedWith direction key = .ok e₁
  inverse : ∀ key enc dec, key.length = e.keySize → e.keyedWith .encrypting key = .ok enc →
    e.keyedWith .decrypting key = .ok dec → Inverse e.blockSize enc dec

theorem process_of_run {e : Engine} {block out : Bytes} (h : e.run block = (out, none)) :
    e.process block = .ok out := by
  rw [process, h]

theorem keyedWith_of_setKey {e e₁ : Engine} {direction : Direction} {key : Bytes}
    (h : e.setKey direction key = (e₁, none)) : e.keyedWith direction key = .ok e₁ := by
  rw [keyedWith, h]

theorem setKey_of_keyedWith {e e₁ : Engine} {direction : Direction} {key : Bytes}
    (h : e.keyedWith direction key = .ok e₁) : e.setKey direction key = (e₁, none) := by
  rcases hs : e.setKey direction key with ⟨e₂, _ | err⟩ <;> rw [keyedWith, hs] at h
  · cases h
    rfl
  · cases h

theorem blockSize_of_keyedWith {e e₁ : Engine} {direction : Direction} {key : Bytes}
    (h : e.keyedWith direction key = .ok e₁) : e₁.blockSize = e.blockSize := by
  rw [← blockSize_setKey direction e key, setKey_of_keyedWith h]

variable {e : Engine}

/-- A key of the right length gives a pair of engines that undo each other. -/
theorem Lawful.exists_keyed (h : e.Lawful) {key : Bytes} (hk : key.length = e.keySize) :
    ∃ enc dec, e.keyedWith .encrypting key = .ok enc ∧ e.keyedWith .decrypting key = .ok dec ∧
      enc.blockSize = e.blockSize ∧ dec.blockSize = e.blockSize ∧ Inverse e.blockSize enc dec := by
  obtain ⟨enc, henc⟩ := h.keyable .encrypting key hk
  obtain ⟨dec, hdec⟩ := h.keyable .decrypting key hk
  exact ⟨enc, dec, henc, hdec, blockSize_of_keyedWith henc, blockSize_of_keyedWith hdec,
    h.inverse key enc dec hk henc hdec⟩

/-- What a keyed engine of lawful leaves computes. -/
theorem process_of_setKey (hl : ∀ c ∈ e.leaves, c.Lawful ∧ c.blockSize = e.blockSize)
    {direction : Direction} {key : Bytes} {e₁ : Engine} (h : e.setKey direction key = (e₁, none))
    {block : Bytes} (hb : block.length = e.blockSize) :
    e₁.process block = .ok (composition direction (e.keyedLeaves key) block) := by
  have hleaves : e₁.leaves = e.leaves := by rw [← leaves_setKey direction e key, h]
  have hsame : e₁.keyedLeaves key = e.keyedLeaves key := by
    rw [keyedLeaves, keyedLeaves, subkeys, subkeys, hleaves]
  obtain ⟨hk, hh⟩ := holds_of_setKey direction h
  have hk₁ : key.length = e₁.keySize := by rw [hk, ← keySize_setKey direction e key, h]
  rw [← hsame]
  refine process_of_run (run_of_holds (fun c hc => ?_) hh hk₁ hb)
  rw [hleaves] at hc
  exact ⟨(hl c hc).1.inPlace, (hl c hc).2⟩

theorem composition_keyedLeaves_inverse
    (hl : ∀ c ∈ e.leaves, c.Lawful ∧ c.blockSize = e.blockSize) {key : Bytes}
    (hk : key.length = e.keySize) {block : Bytes} (hb : block.length = e.blockSize) :
    composition .decrypting (e.keyedLeaves key)
        (composition .encrypting (e.keyedLeaves key) block) = block ∧
      composition .encrypting (e.keyedLeaves key)
        (composition .decrypting (e.keyedLeaves key) block) = block := by
  refine composition_inverse (fun k hmem b hb => ?_) hb
  obtain ⟨c, hc, subkey, hsub, rfl⟩ := exists_of_mem_keyedLeaves hk hmem
  obtain ⟨hlaw, hn⟩ := hl c hc
  rw [← hn] at hb ⊢
  exact ⟨⟨hlaw.length_encrypt _ _ hsub hb, hlaw.decrypt_encrypt _ _ hsub hb⟩,
    hlaw.length_decrypt _ _ hsub hb, hlaw.encrypt_decrypt _ _ hsub hb⟩

/-- Keying an engine of lawful leaves for both directions gives engines that undo each other. -/
theorem inverse_of_setKey (hl : ∀ c ∈ e.leaves, c.Lawful ∧ c.blockSize = e.blockSize) {key : Bytes}
    {enc dec : Engine} (henc : e.setKey .encrypting key = (enc, none))
    (hdec : e.setKey .decrypting key = (dec, none)) : Inverse e.blockSize enc dec := by
  have hk := (holds_of_setKey .encrypting henc).1
  have hin : ∀ c ∈ e.leaves, c.InPlace ∧ c.blockSize = e.blockSize :=
    fun c hc => ⟨(hl c hc).1.inPlace, (hl c hc).2⟩
  constructor
  · intro block hb
    have hout := length_composition_keyedLeaves .encrypting hin hk hb
    refine ⟨_, hout, process_of_setKey hl henc hb, ?_⟩
    rw [process_of_setKey hl hdec hout, (composition_keyedLeaves_inverse hl hk hb).1]
  · intro block hb
    have hout := length_composition_keyedLeaves .decrypting hin hk hb
    refine ⟨_, hout, process_of_setKey hl hdec hb, ?_⟩
    rw [process_of_setKey hl henc hout, (composition_keyedLeaves_inverse hl hk hb).2]

theorem Built.lawful_leaves (h : e.Built Stage.Lawful) :
    ∀ c ∈ e.leaves, c.Lawful ∧ c.blockSize = e.blockSize :=
  h.leaves fun _ hs => hs.1

theorem Built.setKey_iff (h : e.Built Stage.Lawful) (direction : Direction) (key : Bytes) :
    (∃ e₁, e.setKey direction key = (e₁, none)) ↔ key.length = e.keySize := by
  constructor
  · rintro ⟨e₁, he⟩
    exact (holds_of_setKey direction he).1
  · exact setKey_of_willing direction (h.willing fun _ hs => hs.2)

theorem lawful_of_built (h : e.Built Stage.Lawful) : e.Lawful where
  keyable direction key hk := by
    obtain ⟨e₁, he⟩ := (h.setKey_iff direction key).2 hk
    exact ⟨e₁, keyedWith_of_setKey he⟩
  inverse _ _ _ _ henc hdec :=
    inverse_of_setKey h.lawful_leaves (setKey_of_keyedWith henc) (setKey_of_keyedWith hdec)

end Engine

end SealedText
