import SealedText.Proofs.ChainInverse
import SealedText.Proofs.MaskLawful

/-!
# Which ciphertexts are accepted

Take two engines that undo each other and a vector. A whole number of blocks always decrypts to as
many blocks, so decrypting fails on a ragged ciphertext for its length, and on any other for its
padding only (`chainDecrypt_error_of_whole`). Encrypting is one to one from the messages whose
padding has a length that fits a byte onto the ciphertexts that are accepted, and every other
message is lost (`chain_exact`). At block sizes up to 255 there is no other message.
-/

namespace SealedText.Engine

variable {n : Nat} {enc dec : Engine} {iv : Bytes}

theorem exists_decryptBlocks (h : Inverse n enc dec) :
    ∀ {blocks : List Bytes} (chain : Bytes), (∀ b ∈ blocks, b.length = n) →
      ∃ outs, dec.decryptBlocks chain blocks = .ok outs
  | [], _, _ => ⟨[], rfl⟩
  | block :: rest, chain, hb => by
    obtain ⟨hblock, hrest⟩ := List.forall_mem_cons.1 hb
    obtain ⟨out, -, hout, -⟩ := h.redo block hblock
    obtain ⟨outs, houts⟩ := exists_decryptBlocks h block hrest
    exact ⟨_, (decryptBlocks_cons_iff ..).2 ⟨out, outs, rfl, hout, houts⟩⟩

theorem chainDecrypt_of_ragged (hdec : dec.blockSize = n) (hiv : iv.length = n) {sealed : Bytes}
    (h : sealed = [] ∨ sealed.length % n ≠ 0) :
    dec.chainDecrypt iv sealed = .error (.badLength sealed.length n) := by
  have hragged : (sealed.isEmpty || sealed.length % n ≠ 0) = true := by
    simpa [List.isEmpty_iff] using h
  rw [chainDecrypt, hdec, if_neg (not_not_intro hiv), if_pos hragged]
  rfl

/-- All blocks are processed, so only the padding can be at fault. -/
theorem chainDecrypt_error_of_whole (h : Inverse n enc dec) (hdec : dec.blockSize = n) (hn : 0 < n)
    (hiv : iv.length = n) {sealed : Bytes} (hne : sealed ≠ []) (hmod : sealed.length % n = 0)
    {err : CipherError} (herr : dec.chainDecrypt iv sealed = .error err) : err = .wrongPadding := by
  have hwhole : ¬ (sealed.isEmpty || sealed.length % n ≠ 0) = true := by
    simp [List.isEmpty_iff, hne, hmod]
  obtain ⟨blocks, hblocks⟩ := exists_decryptBlocks h iv (length_of_mem_blocksOf hn hmod)
  rw [chainDecrypt, hdec, if_neg (not_not_intro hiv), if_neg hwhole, hblocks, ok_bind] at herr
  split at herr
  · cases herr
  · cases herr
    rfl

theorem bijOn_chainEncrypt (h : Inverse n enc dec) (henc : enc.blockSize = n)
    (hdec : dec.blockSize = n) (hn : 0 < n) (hiv : iv.length = n) :
    Set.BijOn (enc.chainEncrypt iv) {message | padLength n message.length ≤ 255}
      {outcome | ∃ sealed message, outcome = .ok sealed ∧
        dec.chainDecrypt iv sealed = .ok message} := by
  have hiff := chainDecrypt_iff h henc hdec hn iv
  refine ⟨fun message hfits => ?_, fun message hfits other hfits₁ heq => ?_, ?_⟩
  · obtain ⟨sealed, hseal, -⟩ := exists_chainEncrypt h henc hn hiv message
    exact ⟨sealed, message, hseal, (hiff sealed message).2 ⟨hseal, hfits⟩⟩
  · obtain ⟨sealed, hseal, -⟩ := exists_chainEncrypt h henc hn hiv message
    have hopen := (hiff sealed message).2 ⟨hseal, hfits⟩
    rw [(hiff sealed other).2 ⟨heq ▸ hseal, hfits₁⟩] at hopen
    cases hopen
    rfl
  · rintro _ ⟨sealed, message, rfl, hopen⟩
    obtain ⟨hseal, hfits⟩ := (hiff sealed message).1 hopen
    exact ⟨message, hfits, hseal⟩

/-- A ciphertext decrypts to a message exactly if the message encrypts to it and the length of its
padding fits a byte. So encrypting is one to one from such messages onto the accepted ciphertexts,
which at block sizes up to 255 are all messages; above that, exactly the others do not come back. A
ciphertext that is not accepted has a wrong length or else a wrong padding. -/
theorem chain_exact (h : Inverse n enc dec) (henc : enc.blockSize = n) (hdec : dec.blockSize = n)
    (hn : 1 ≤ n) (hiv : iv.length = n) :
    (∀ sealed message, dec.chainDecrypt iv sealed = .ok message ↔
        enc.chainEncrypt iv message = .ok sealed ∧ n - message.length % n ≤ 255) ∧
      Set.BijOn (enc.chainEncrypt iv) {message | n - message.length % n ≤ 255}
        {outcome | ∃ sealed message, outcome = .ok sealed ∧
          dec.chainDecrypt iv sealed = .ok message} ∧
      (∀ message, ∃ sealed, enc.chainEncrypt iv message = .ok sealed ∧
        (dec.chainDecrypt iv sealed = .ok message ↔ n - message.length % n ≤ 255)) ∧
      (n ≤ 255 → ∀ message,
        (enc.chainEncrypt iv message >>= dec.chainDecrypt iv) = .ok message) ∧
      ∀ sealed,
        (sealed = [] ∨ sealed.length % n ≠ 0 →
          dec.chainDecrypt iv sealed = .error (.badLength sealed.length n)) ∧
        (¬ (sealed = [] ∨ sealed.length % n ≠ 0) → ∀ err,
          dec.chainDecrypt iv sealed = .error err → err = .wrongPadding) := by
  have hiff := chainDecrypt_iff h henc hdec hn iv
  have hback : ∀ message, ∃ sealed, enc.chainEncrypt iv message = .ok sealed ∧
      (dec.chainDecrypt iv sealed = .ok message ↔ padLength n message.length ≤ 255) := by
    intro message
    obtain ⟨sealed, hseal, -⟩ := exists_chainEncrypt h henc hn hiv message
    exact ⟨sealed, hseal, (hiff sealed message).trans (and_iff_right hseal)⟩
  refine ⟨hiff, bijOn_chainEncrypt h henc hdec hn hiv, hback, fun hsmall message => ?_,
    fun sealed => ⟨chainDecrypt_of_ragged hdec hiv, fun hwhole err herr => ?_⟩⟩
  · obtain ⟨sealed, hseal, hopen⟩ := hback message
    rw [hseal, ok_bind]
    exact hopen.2 ((padLength_le n message.length).trans hsmall)
  · obtain ⟨hne, hmod⟩ := not_or.1 hwhole
    exact chainDecrypt_error_of_whole h hdec hn hiv hne (not_not.1 hmod) herr

/-- With blocks of 300 bytes the empty message, whose padding is a whole block, is lost; a message
of 45 bytes has a padding of 255 bytes and comes back. -/
theorem wideMask_chain_exact :
    ∃ enc dec, (ofCipher (Mask.cipher 300 1)).keyedWith .encrypting [7] = .ok enc ∧
      (ofCipher (Mask.cipher 300 1)).keyedWith .decrypting [7] = .ok dec ∧
      (∃ sealed, enc.chainEncrypt (List.replicate 300 0) [] = .ok sealed ∧
        dec.chainDecrypt (List.replicate 300 0) sealed ≠ .ok []) ∧
      ∃ sealed, enc.chainEncrypt (List.replicate 300 0) (List.replicate 45 1) = .ok sealed ∧
        dec.chainDecrypt (List.replicate 300 0) sealed = .ok (List.replicate 45 1) := by
  have hbuilt : (ofCipher (Mask.cipher 300 1)).Built Stage.Lawful :=
    .stage ⟨Mask.lawful 300 1, fun _ => rfl⟩
  have hkey : ([7] : Bytes).length = (ofCipher (Mask.cipher 300 1)).keySize := rfl
  obtain ⟨enc, dec, henc, hdec, hencSize, hdecSize, hinv⟩ :=
    (lawful_of_built hbuilt).exists_keyed hkey
  have hiv : (List.replicate 300 (0 : UInt8)).length = 300 := List.length_replicate
  obtain ⟨-, -, hback, -⟩ := chain_exact hinv hencSize hdecSize (by decide) hiv
  obtain ⟨lost, hlost, hlostIff⟩ := hback []
  obtain ⟨kept, hkept, hkeptIff⟩ := hback (List.replicate 45 1)
  exact ⟨enc, dec, henc, hdec, ⟨lost, hlost, fun hopen => absurd (hlostIff.1 hopen) (by decide)⟩,
    kept, hkept, hkeptIff.2 (by decide)⟩

end SealedText.Engine
