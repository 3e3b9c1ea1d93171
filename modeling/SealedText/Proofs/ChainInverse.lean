import SealedText.Cipher.Chaining
import SealedText.Proofs.Blocks
import SealedText.Proofs.EngineLawful
import SealedText.Proofs.Outcomes

/-!
# Chaining undone

Block by block, decrypting a chain and encrypting one are the same relation between plain and cipher
blocks, read from the two ends (`encryptBlocks_iff`). Padding is undone by `unpad?`, which takes
nothing that `pad` does not make as long as the length of the padding fits a byte. So a ciphertext
decrypts to a message exactly if the message encrypts to it (`chainDecrypt_iff`).
-/

namespace SealedText

/-! ## Padding -/

section Padding

variable {n : Nat}

theorem length_pad (n : Nat) (message : Bytes) :
    (pad n message).length = message.length + padLength n message.length := by
  rw [pad, List.length_append, List.length_replicate]

theorem padLength_pos (hn : 0 < n) (length : Nat) : 0 < padLength n length :=
  Nat.sub_pos_of_lt (Nat.mod_lt length hn)

theorem padLength_le (n length : Nat) : padLength n length ≤ n := Nat.sub_le _ _

theorem length_pad_mod (hn : 0 < n) (message : Bytes) : (pad n message).length % n = 0 := by
  have hmod := Nat.mod_lt message.length hn
  have hdiv := Nat.div_add_mod message.length n
  have hlen : message.length + (n - message.length % n) = n * (message.length / n + 1) := by
    rw [Nat.mul_add_one]
    omega
  rw [length_pad, padLength, hlen, Nat.mul_mod_right]

theorem pad_ne_nil (hn : 0 < n) (message : Bytes) : pad n message ≠ [] := by
  have hpos := padLength_pos hn message.length
  have hlen := length_pad n message
  exact List.ne_nil_of_length_pos (by omega)

theorem toNat_padLength {length : Nat} (h : padLength n length ≤ 255) :
    (UInt8.ofNat (padLength n length)).toNat = padLength n length := by
  rw [UInt8.toNat_ofNat']
  exact Nat.mod_eq_of_lt (by omega)

theorem getLastD_append_replicate (xs : Bytes) {k : Nat} (hk : 0 < k) (mark : UInt8) :
    (xs ++ List.replicate k mark).getLastD 0 = mark := by
  obtain ⟨j, rfl⟩ : ∃ j, k = j + 1 := ⟨k - 1, by omega⟩
  rw [List.replicate_succ', ← List.append_assoc, List.getLastD_concat]

theorem unpad?_pad (hn : 0 < n) {message : Bytes} (h : padLength n message.length ≤ 255) :
    unpad? n (pad n message) = some message := by
  have hpos := padLength_pos hn message.length
  have hle := padLength_le n message.length
  have hmark := toNat_padLength h
  have hlen : (pad n message).length - padLength n message.length = message.length := by
    rw [length_pad]
    omega
  have hlast : (pad n message).getLastD 0 = UInt8.ofNat (padLength n message.length) :=
    getLastD_append_replicate message hpos _
  have hbad : ¬ (padLength n message.length = 0 ∨ padLength n message.length > n) := by omega
  simp only [unpad?, hlast, hmark, hlen, if_neg hbad]
  rw [pad, List.drop_left, List.take_left, if_pos]
  rw [List.all_replicate]
  simp

theorem padLength_sub {whole k : Nat} (hmod : whole % n = 0) (hwhole : n ≤ whole) (hpos : 0 < k)
    (hle : k ≤ n) : padLength n (whole - k) = k := by
  obtain ⟨q, rfl⟩ := Nat.dvd_of_mod_eq_zero hmod
  obtain ⟨j, rfl⟩ : ∃ j, q = j + 1 := by
    cases q with
    | zero => omega
    | succ j => exact ⟨j, rfl⟩
  have hsplit : n * (j + 1) - k = n - k + n * j := by
    rw [Nat.mul_add_one]
    omega
  rw [padLength, hsplit, Nat.add_mul_mod_self_left, Nat.mod_eq_of_lt (by omega)]
  omega

/-- What has its padding taken off was padded, and its padding is short enough to be written. -/
theorem pad_of_unpad? {padded message : Bytes} (hne : padded ≠ []) (hmod : padded.length % n = 0)
    (h : unpad? n padded = some message) :
    padded = pad n message ∧ padLength n message.length ≤ 255 := by
  simp only [unpad?] at h
  split_ifs at h with hbad hall
  generalize hmark : padded.getLastD 0 = mark at h hbad hall
  obtain ⟨hpos, hle⟩ : 0 < mark.toNat ∧ mark.toNat ≤ n := by omega
  have hlong : n ≤ padded.length :=
    Nat.le_of_dvd (List.length_pos_iff.2 hne) (Nat.dvd_of_mod_eq_zero hmod)
  have hmessage : padded.take (padded.length - mark.toNat) = message := Option.some.inj h
  have hlen : message.length = padded.length - mark.toNat := by
    rw [← hmessage, List.length_take]
    omega
  have hpadLength : padLength n message.length = mark.toNat := by
    rw [hlen, padLength_sub hmod hlong hpos hle]
  have hdrop : padded.drop (padded.length - mark.toNat) = List.replicate mark.toNat mark := by
    refine List.eq_replicate_iff.2 ⟨by rw [List.length_drop]; omega, fun b hb => ?_⟩
    exact beq_iff_eq.1 (List.all_eq_true.1 hall b hb)
  constructor
  · simp only [pad, hpadLength]
    rw [UInt8.ofNat_toNat, ← hdrop, ← hmessage, List.take_append_drop]
  · rw [hpadLength]
    exact Nat.le_of_lt_succ mark.toNat_lt

end Padding

/-! ## Blocks -/

namespace Engine

section Blocks

variable {n : Nat} {enc dec : Engine}

theorem length_of_process (h : Inverse n enc dec) {block out : Bytes} (hb : block.length = n) :
    (enc.process block = .ok out → out.length = n) ∧
      (dec.process block = .ok out → out.length = n) := by
  obtain ⟨out₁, hlen₁, h₁, -⟩ := h.undo block hb
  obtain ⟨out₂, hlen₂, h₂, -⟩ := h.redo block hb
  constructor
  · intro ho
    rw [h₁] at ho
    cases ho
    exact hlen₁
  · intro ho
    rw [h₂] at ho
    cases ho
    exact hlen₂

theorem process_iff (h : Inverse n enc dec) {block out : Bytes} (hb : block.length = n)
    (ho : out.length = n) : enc.process block = .ok out ↔ dec.process out = .ok block := by
  constructor
  · intro henc
    obtain ⟨out₁, -, henc₁, hdec⟩ := h.undo block hb
    rw [henc] at henc₁
    cases henc₁
    exact hdec
  · intro hdec
    obtain ⟨block₁, -, hdec₁, henc⟩ := h.redo out ho
    rw [hdec] at hdec₁
    cases hdec₁
    exact henc

theorem encryptBlocks_cons_iff (e : Engine) (chain block : Bytes) (rest outs : List Bytes) :
    e.encryptBlocks chain (block :: rest) = .ok outs ↔
      ∃ out outs₁, outs = out :: outs₁ ∧ e.process (block.xor chain) = .ok out ∧
        e.encryptBlocks out rest = .ok outs₁ := by
  rw [encryptBlocks, bind_eq_ok]
  constructor
  · rintro ⟨out, hout, hrest⟩
    obtain ⟨outs₁, houts, h⟩ := bind_eq_ok.1 hrest
    cases h
    exact ⟨out, outs₁, rfl, hout, houts⟩
  · rintro ⟨out, outs₁, rfl, hout, houts⟩
    exact ⟨out, hout, bind_eq_ok.2 ⟨outs₁, houts, rfl⟩⟩

theorem decryptBlocks_cons_iff (e : Engine) (chain block : Bytes) (rest outs : List Bytes) :
    e.decryptBlocks chain (block :: rest) = .ok outs ↔
      ∃ out outs₁, outs = out.xor chain :: outs₁ ∧ e.process block = .ok out ∧
        e.decryptBlocks block rest = .ok outs₁ := by
  rw [decryptBlocks, bind_eq_ok]
  constructor
  · rintro ⟨out, hout, hrest⟩
    obtain ⟨outs₁, houts, h⟩ := bind_eq_ok.1 hrest
    cases h
    exact ⟨out, outs₁, rfl, hout, houts⟩
  · rintro ⟨out, outs₁, rfl, hout, houts⟩
    exact ⟨out, hout, bind_eq_ok.2 ⟨outs₁, houts, rfl⟩⟩

theorem exists_encryptBlocks (h : Inverse n enc dec) :
    ∀ {chain : Bytes} {blocks : List Bytes}, chain.length = n → (∀ b ∈ blocks, b.length = n) →
      ∃ outs, enc.encryptBlocks chain blocks = .ok outs ∧ outs.length = blocks.length ∧
        ∀ o ∈ outs, o.length = n
  | _, [], _, _ => ⟨[], rfl, rfl, by simp⟩
  | chain, block :: rest, hc, hb => by
    have hmask : (block.xor chain).length = n := by
      rw [Bytes.length_xor, hb block List.mem_cons_self, hc, Nat.min_self]
    obtain ⟨out, hlen, hout, -⟩ := h.undo _ hmask
    obtain ⟨outs, houts, hcount, hlens⟩ :=
      exists_encryptBlocks h hlen fun b hm => hb b (List.mem_cons_of_mem block hm)
    refine ⟨out :: outs, (encryptBlocks_cons_iff ..).2 ⟨out, outs, rfl, hout, houts⟩, ?_, ?_⟩
    · rw [List.length_cons, List.length_cons, hcount]
    · exact List.forall_mem_cons.2 ⟨hlen, hlens⟩

theorem length_of_decryptBlocks (h : Inverse n enc dec) :
    ∀ {chain : Bytes} {blocks outs : List Bytes}, chain.length = n → (∀ b ∈ blocks, b.length = n) →
      dec.decryptBlocks chain blocks = .ok outs →
        outs.length = blocks.length ∧ ∀ o ∈ outs, o.length = n
  | _, [], _, _, _, hd => by
    cases hd
    exact ⟨rfl, by simp⟩
  | chain, block :: rest, _, hc, hb, hd => by
    obtain ⟨out, outs, rfl, hout, houts⟩ := (decryptBlocks_cons_iff ..).1 hd
    have hblock := hb block List.mem_cons_self
    obtain ⟨hcount, hlens⟩ :=
      length_of_decryptBlocks h hblock (fun b hm => hb b (List.mem_cons_of_mem block hm)) houts
    have hlen : (out.xor chain).length = n := by
      rw [Bytes.length_xor, (length_of_process h hblock).2 hout, hc, Nat.min_self]
    refine ⟨?_, List.forall_mem_cons.2 ⟨hlen, hlens⟩⟩
    rw [List.length_cons, List.length_cons, hcount]

/-- Encrypting blocks and decrypting them are one relation. -/
theorem encryptBlocks_iff (h : Inverse n enc dec) :
    ∀ {chain : Bytes} {blocks outs : List Bytes}, chain.length = n → (∀ b ∈ blocks, b.length = n) →
      (∀ o ∈ outs, o.length = n) →
      (enc.encryptBlocks chain blocks = .ok outs ↔ dec.decryptBlocks chain outs = .ok blocks)
  | _, [], [], _, _, _ => ⟨fun _ => rfl, fun _ => rfl⟩
  | _, [], out :: outs, _, _, _ => by
    constructor
    · intro henc
      cases henc
    · intro hdec
      obtain ⟨_, _, hcons, -⟩ := (decryptBlocks_cons_iff ..).1 hdec
      cases hcons
  | _, block :: rest, [], _, _, _ => by
    constructor
    · intro henc
      obtain ⟨_, _, hcons, -⟩ := (encryptBlocks_cons_iff ..).1 henc
      cases hcons
    · intro hdec
      cases hdec
  | chain, block :: rest, out :: outs, hc, hb, ho => by
    obtain ⟨hblock, hrest⟩ := List.forall_mem_cons.1 hb
    obtain ⟨hout, houts⟩ := List.forall_mem_cons.1 ho
    have hmask : (block.xor chain).length = n := by
      rw [Bytes.length_xor, hblock, hc, Nat.min_self]
    rw [encryptBlocks_cons_iff, decryptBlocks_cons_iff]
    constructor
    · rintro ⟨_, _, hcons, hp, he⟩
      cases hcons
      refine ⟨_, rest, ?_, (process_iff h hmask hout).1 hp,
        (encryptBlocks_iff h hout hrest houts).1 he⟩
      rw [Bytes.xor_xor (by omega)]
    · rintro ⟨masked, _, hcons, hp, hd⟩
      cases hcons
      have hmasked := (length_of_process h hout).2 hp
      refine ⟨out, outs, rfl, ?_, (encryptBlocks_iff h hout hrest houts).2 hd⟩
      rw [Bytes.xor_xor (by omega)]
      exact (process_iff h hmasked hout).2 hp

end Blocks

/-! ## Messages -/

theorem chainEncrypt_ok_iff (e : Engine) (iv message sealed : Bytes) :
    e.chainEncrypt iv message = .ok sealed ↔
      iv.length = e.blockSize ∧
        ∃ blocks, e.encryptBlocks iv (blocksOf e.blockSize (pad e.blockSize message)) = .ok blocks ∧
          sealed = blocks.flatten := by
  rw [chainEncrypt, check_bind_eq_ok, bind_eq_ok, Decidable.not_not]
  constructor
  · rintro ⟨hiv, blocks, hblocks, h⟩
    cases h
    exact ⟨hiv, blocks, hblocks, rfl⟩
  · rintro ⟨hiv, blocks, hblocks, rfl⟩
    exact ⟨hiv, blocks, hblocks, rfl⟩

theorem chainDecrypt_ok_iff (e : Engine) (iv sealed message : Bytes) :
    e.chainDecrypt iv sealed = .ok message ↔
      iv.length = e.blockSize ∧ sealed ≠ [] ∧ sealed.length % e.blockSize = 0 ∧
        ∃ blocks, e.decryptBlocks iv (blocksOf e.blockSize sealed) = .ok blocks ∧
          unpad? e.blockSize blocks.flatten = some message := by
  have hwhole : ¬ (sealed.isEmpty || sealed.length % e.blockSize ≠ 0) = true ↔
      sealed ≠ [] ∧ sealed.length % e.blockSize = 0 := by
    simp [List.isEmpty_iff]
  rw [chainDecrypt, check_bind_eq_ok, check_bind_eq_ok, bind_eq_ok, Decidable.not_not, hwhole,
    and_assoc]
  refine and_congr_right fun _ => and_congr_right fun _ => and_congr_right fun _ =>
    exists_congr fun blocks => and_congr_right fun _ => ?_
  cases hu : unpad? e.blockSize blocks.flatten with
  | none =>
    constructor
    · intro h
      cases h
    · intro h
      cases h
  | some m =>
    constructor
    · intro h
      cases h
      rfl
    · intro h
      cases h
      rfl

variable {n : Nat} {enc dec : Engine}

/-- Every message encrypts, to whole blocks and at least one. -/
theorem exists_chainEncrypt (h : Inverse n enc dec) (henc : enc.blockSize = n) (hn : 0 < n)
    {iv : Bytes} (hiv : iv.length = n) (message : Bytes) :
    ∃ sealed, enc.chainEncrypt iv message = .ok sealed ∧
      sealed.length = message.length + padLength n message.length := by
  have hlens := length_of_mem_blocksOf hn (length_pad_mod hn message)
  obtain ⟨outs, houts, hcount, houtlens⟩ := exists_encryptBlocks h hiv hlens
  refine ⟨outs.flatten, (chainEncrypt_ok_iff ..).2 ⟨hiv.trans henc.symm, outs, ?_, rfl⟩, ?_⟩
  · rwa [henc]
  · rw [length_flatten_of_length houtlens, hcount, ← length_flatten_of_length hlens,
      flatten_blocksOf, length_pad]

/-- A ciphertext decrypts to a message exactly if the message encrypts to it and the length of its
padding fits a byte. -/
theorem chainDecrypt_iff (h : Inverse n enc dec) (henc : enc.blockSize = n)
    (hdec : dec.blockSize = n) (hn : 0 < n) (iv sealed message : Bytes) :
    dec.chainDecrypt iv sealed = .ok message ↔
      enc.chainEncrypt iv message = .ok sealed ∧ padLength n message.length ≤ 255 := by
  rw [chainDecrypt_ok_iff, chainEncrypt_ok_iff, hdec, henc]
  constructor
  · rintro ⟨hiv, hne, hmod, blocks, hblocks, hu⟩
    have hcut := length_of_mem_blocksOf hn hmod
    obtain ⟨hcount, hlens⟩ := length_of_decryptBlocks h hiv hcut hblocks
    have hlen : blocks.flatten.length = sealed.length := by
      rw [length_flatten_of_length hlens, hcount, ← length_flatten_of_length hcut, flatten_blocksOf]
    have hfull : blocks.flatten ≠ [] := by
      rw [← List.length_pos_iff, hlen]
      exact List.length_pos_iff.2 hne
    obtain ⟨hpad, hfits⟩ := pad_of_unpad? hfull (by rw [hlen, hmod]) hu
    refine ⟨⟨hiv, blocksOf n sealed, ?_, (flatten_blocksOf n sealed).symm⟩, hfits⟩
    rw [← hpad, blocksOf_flatten hn blocks hlens]
    exact (encryptBlocks_iff h hiv hlens hcut).2 hblocks
  · rintro ⟨⟨hiv, outs, houts, rfl⟩, hfits⟩
    have hcut := length_of_mem_blocksOf hn (length_pad_mod hn message)
    obtain ⟨outs₁, houts₁, hcount, hlens⟩ := exists_encryptBlocks h hiv hcut
    rw [houts] at houts₁
    cases houts₁
    have hlen : outs.flatten.length = (pad n message).length := by
      rw [length_flatten_of_length hlens, hcount, ← length_flatten_of_length hcut, flatten_blocksOf]
    refine ⟨hiv, ?_, ?_, blocksOf n (pad n message), ?_, ?_⟩
    · rw [← List.length_pos_iff, hlen]
      exact List.length_pos_iff.2 (pad_ne_nil hn message)
    · rw [hlen, length_pad_mod hn]
    · rw [blocksOf_flatten hn outs hlens]
      exact (encryptBlocks_iff h hiv hcut hlens).1 houts
    · rw [flatten_blocksOf]
      exact unpad?_pad hn hfits

end Engine

end SealedText
