import SealedText.Proofs.EngineLawful
import SealedText.Proofs.MaskLawful

/-!
# A cascade through its calls

Keying a cascade can stop half way, with new keys in some stages and old ones in others. `step`
follows an engine through its calls together with the direction and key it should be working under:
that of the last keying that succeeded, and none once a stage has refused or the keys were dropped.
`Tracks` says that the engine agrees: a cascade without a current key is flagged so, and with one
every stage holds its part of it. Each call keeps that (`tracks_step`), so every run does, and a
block is processed under the current key or not touched at all.
-/

namespace SealedText

/-- A stage that works in place. It may refuse any call. -/
def Stage.InPlace (s : Stage) : Prop := s.cipher.InPlace

/-- A call to an engine. -/
inductive Call
  | setKey (direction : Direction) (key : Bytes)
  | process (block : Bytes)
  | clear

namespace Engine

/-- The engine after a call, and the direction and key that it should be working under. A key of the
wrong length is turned away before any stage sees it. Processing a block changes nothing in the
engine. -/
def step (state : Engine × Option (Direction × Bytes)) : Call → Engine × Option (Direction × Bytes)
  | .setKey direction key =>
    match state.1.setKey direction key with
    | (e, none) => (e, some (direction, key))
    | (e, some _) => (e, if key.length = state.1.keySize then none else state.2)
  | .process _ => state
  | .clear => (state.1.clear, none)

/-- What the leaves hold, from left to right. -/
def heldKeys : Engine → List (Option (Direction × KeyedCipher))
  | .stage s => [s.held]
  | .cascade first second third _ => first.heldKeys ++ second.heldKeys ++ third.heldKeys

theorem heldKeys_of_holds {direction : Direction} :
    ∀ {e : Engine} {key : Bytes}, e.Holds direction key → key.length = e.keySize →
      e.heldKeys = (e.keyedLeaves key).map fun k => some (direction, k)
  | .stage s, key, he, hk => by
    have he : s.held = some (direction, s.cipher.keyed key) := he
    rw [keyedLeaves_stage s hk, heldKeys, he]
    rfl
  | .cascade first second third keyed, key, he, hk => by
    obtain ⟨-, hf, hs, ht⟩ := he
    have hk' : key.length = first.keySize + second.keySize + third.keySize := hk
    obtain ⟨hkf, hks, hkt⟩ := length_parts hk'
    rw [keyedLeaves_cascade, heldKeys, List.map_append, List.map_append, heldKeys_of_holds hf hkf,
      heldKeys_of_holds hs hks, heldKeys_of_holds ht hkt]

/-- The engine is a cascade of the given leaves in the state that the current key asks for. -/
structure Tracks (ciphers : List BlockCipher) (e : Engine) (current : Option (Direction × Bytes)) :
    Prop where
  leaves : e.leaves = ciphers
  flag : ∃ first second third, e = cascade first second third (current.map (·.1))
  holds : ∀ direction key, current = some (direction, key) →
    key.length = e.keySize ∧ e.Holds direction key

variable {ciphers : List BlockCipher} {e : Engine} {current : Option (Direction × Bytes)}

theorem tracks_of_chain {first second third : Engine} (h : chain first second third = .ok e) :
    Tracks e.leaves e none := by
  obtain ⟨-, -, rfl⟩ := chain_cases h
  exact ⟨rfl, ⟨first, second, third, rfl⟩, fun _ _ h => by simp at h⟩

theorem setKey_of_ne (h : Tracks ciphers e current) (direction : Direction) {key : Bytes}
    (hk : key.length ≠ e.keySize) : e.setKey direction key = (e, some (e.wrongKey key)) := by
  obtain ⟨first, second, third, rfl⟩ := h.flag
  rcases setKey_cascade_cases first second third (current.map (·.1)) direction key with
    ⟨-, h⟩ | ⟨hlen, -⟩ | ⟨hlen, -⟩
  · exact h
  · exact absurd hlen hk
  · exact absurd hlen hk

/-- A keying that is not turned away is carried through or leaves the cascade without a key. -/
theorem tracks_setKey (h : Tracks ciphers e current) (direction : Direction) (key : Bytes) :
    let next := step (e, current) (.setKey direction key)
    Tracks ciphers next.1 next.2 := by
  have hleaves := leaves_setKey direction e key
  by_cases hk : key.length = e.keySize
  · obtain ⟨first, second, third, rfl⟩ := h.flag
    rcases setKey_cascade_cases first second third (current.map (·.1)) direction key with
      ⟨hne, -⟩ | ⟨-, first₁, second₁, third₁, err, hset, -⟩ | ⟨-, first₁, second₁, third₁, hset, -⟩
    · exact absurd hk hne
    · rw [hset] at hleaves
      simp only [step, hset, if_pos hk]
      exact ⟨hleaves.trans h.leaves, ⟨first₁, second₁, third₁, rfl⟩, fun _ _ h => by simp at h⟩
    · have hsize := keySize_setKey direction _ key ▸ hk
      rw [hset] at hleaves hsize
      simp only [step, hset]
      refine ⟨hleaves.trans h.leaves, ⟨first₁, second₁, third₁, rfl⟩, fun d k hdk => ?_⟩
      cases hdk
      exact ⟨hsize, (holds_of_setKey direction hset).2⟩
  · simp only [step, setKey_of_ne h direction hk, if_neg hk]
    exact h

theorem tracks_step (h : Tracks ciphers e current) (call : Call) :
    Tracks ciphers (step (e, current) call).1 (step (e, current) call).2 := by
  cases call with
  | setKey direction key => exact tracks_setKey h direction key
  | process block => exact h
  | clear =>
    obtain ⟨first, second, third, rfl⟩ := h.flag
    exact ⟨(leaves_clear _).trans h.leaves, ⟨_, _, _, rfl⟩, fun _ _ h => by simp [step] at h⟩

theorem tracks_calls :
    ∀ (calls : List Call) {e : Engine} {current : Option (Direction × Bytes)},
      Tracks ciphers e current →
      Tracks ciphers (calls.foldl step (e, current)).1 (calls.foldl step (e, current)).2
  | [], _, _, h => h
  | call :: calls, _, _, h => tracks_calls calls (tracks_step h call)

/-- What processing a block does, in each state that a run can reach. -/
theorem run_of_tracks {n : Nat} (hl : ∀ c ∈ ciphers, c.InPlace ∧ c.blockSize = n)
    (h : Tracks ciphers e current) (block : Bytes) :
    (current = none ∧ e.run block = (block, some (.unkeyed "Cascade"))) ∨
      (current.isSome ∧ block.length ≠ n ∧
        e.run block = (block, some (.badLength block.length n))) ∨
      ∃ direction key, current = some (direction, key) ∧ block.length = n ∧
        e.run block = (composition direction (e.keyedLeaves key) block, none) := by
  rw [← h.leaves] at hl
  rcases current with _ | ⟨direction, key⟩
  · obtain ⟨first, second, third, rfl⟩ := h.flag
    exact .inl ⟨rfl, rfl⟩
  · obtain ⟨hk, hh⟩ := h.holds direction key rfl
    by_cases hb : block.length = n
    · exact .inr (.inr ⟨direction, key, rfl, hb, run_of_holds hl hh hk hb⟩)
    · exact .inr (.inl ⟨rfl, hb, run_of_holds_of_ne (fun c hc => (hl c hc).2) hh hb⟩)

theorem exists_process_iff {n : Nat} (hl : ∀ c ∈ ciphers, c.InPlace ∧ c.blockSize = n)
    (h : Tracks ciphers e current) (block : Bytes) :
    (∃ out, e.process block = .ok out) ↔ block.length = n ∧ current.isSome := by
  constructor
  · rintro ⟨out, hout⟩
    rcases run_of_tracks hl h block with ⟨-, hr⟩ | ⟨-, -, hr⟩ | ⟨direction, key, rfl, hb, -⟩
    · rw [process, hr] at hout
      cases hout
    · rw [process, hr] at hout
      cases hout
    · exact ⟨hb, rfl⟩
  · rintro ⟨hb, hc⟩
    rcases run_of_tracks hl h block with ⟨rfl, -⟩ | ⟨-, hne, -⟩ | ⟨direction, key, -, -, hr⟩
    · cases hc
    · exact absurd hb hne
    · exact ⟨_, process_of_run hr⟩

theorem output_of_tracks {n : Nat} (hl : ∀ c ∈ ciphers, c.InPlace ∧ c.blockSize = n)
    (h : Tracks ciphers e current) {block out : Bytes} (hout : e.run block = (out, none)) :
    ∃ direction key, current = some (direction, key) ∧
      out = composition direction (e.keyedLeaves key) block := by
  rcases run_of_tracks hl h block with ⟨-, hr⟩ | ⟨-, -, hr⟩ | ⟨direction, key, hc, -, hr⟩
  · rw [hr] at hout
    cases hout
  · rw [hr] at hout
    cases hout
  · rw [hr] at hout
    cases hout
    exact ⟨direction, key, hc, rfl⟩

theorem error_of_tracks {n : Nat} (hl : ∀ c ∈ ciphers, c.InPlace ∧ c.blockSize = n)
    (h : Tracks ciphers e current) {block out : Bytes} {err : CipherError}
    (hout : e.run block = (out, some err)) :
    out = block ∧
      err = if current.isSome then .badLength block.length n else .unkeyed "Cascade" := by
  rcases run_of_tracks hl h block with ⟨rfl, hr⟩ | ⟨hc, -, hr⟩ | ⟨direction, key, -, -, hr⟩
  · rw [hr] at hout
    cases hout
    exact ⟨rfl, rfl⟩
  · rw [hr] at hout
    cases hout
    exact ⟨rfl, (if_pos hc).symm⟩
  · rw [hr] at hout
    cases hout

/-- Whatever calls a fresh cascade has had, it processes the blocks of its size while it has a
current key and no others. What it then returns is the composition of all its leaves under that key
and direction, which every one of them holds. When it fails the block is as it was, and the error
says whether the key or the length is at fault. A key of the wrong length changes nothing. -/
theorem cascade_never_mixed {first second third e : Engine} (hf : first.Built Stage.InPlace)
    (hs : second.Built Stage.InPlace) (ht : third.Built Stage.InPlace)
    (h : chain first second third = .ok e) (calls : List Call) {e₁ : Engine}
    {current : Option (Direction × Bytes)} (hrun : calls.foldl step (e, none) = (e₁, current)) :
    (∀ block : Bytes, (∃ out, e₁.process block = .ok out) ↔
        block.length = e.blockSize ∧ current.isSome) ∧
      (∀ block out, e₁.run block = (out, none) →
        ∃ direction key, current = some (direction, key) ∧ key.length = e.keySize ∧
          e₁.Holds direction key ∧
          e₁.heldKeys = (List.zipWith BlockCipher.keyed e.leaves (e.subkeys key)).map
            (fun k => some (direction, k)) ∧
          out = composition direction
            (List.zipWith BlockCipher.keyed e.leaves (e.subkeys key)) block) ∧
      (∀ block out err, e₁.run block = (out, some err) →
        out = block ∧ err = if current.isSome then .badLength block.length e.blockSize
          else .unkeyed "Cascade") ∧
      ∀ direction key, key.length ≠ e.keySize →
        e₁.setKey direction key = (e₁, some (.refusedKey "Cascade" e.keySize key.length)) := by
  have hl := (Built.chained hf hs ht h).leaves (Q := BlockCipher.InPlace) fun _ hp => hp
  have htr : Tracks e.leaves e₁ current := by
    have := tracks_calls calls (tracks_of_chain h)
    rwa [hrun] at this
  have hsize : e₁.keySize = e.keySize := by
    rw [keySize_eq_sum, htr.leaves, ← keySize_eq_sum]
  have hkeyed (key : Bytes) :
      e₁.keyedLeaves key = List.zipWith BlockCipher.keyed e.leaves (e.subkeys key) := by
    rw [keyedLeaves, subkeys, htr.leaves, subkeys]
  refine ⟨exists_process_iff hl htr, fun block out hout => ?_, fun _ _ _ => error_of_tracks hl htr,
    fun direction key hk => ?_⟩
  · obtain ⟨direction, key, rfl, rfl⟩ := output_of_tracks hl htr hout
    obtain ⟨hk, hh⟩ := htr.holds direction key rfl
    refine ⟨direction, key, rfl, hk.trans hsize, hh, ?_, by rw [hkeyed]⟩
    rw [heldKeys_of_holds hh hk, hkeyed]
  · rw [← hsize] at hk ⊢
    obtain ⟨first, second, third, rfl⟩ := htr.flag
    exact setKey_of_ne htr direction hk

/-- A mask of two key bytes that refuses to be keyed a second time. -/
def onceMask : Engine := .stage { cipher := Mask.cipher 4 2, refuses := fun n => n == 1 }

theorem onceMask_never_mixed :
    ∃ e e₁, chain (ofCipher (Mask.cipher 4 1)) onceMask (ofCipher (Mask.cipher 4 1)) = .ok e ∧
      [Call.setKey .encrypting [1, 2, 3, 4], .setKey .decrypting [5, 6, 7, 8]].foldl step
        (e, none) = (e₁, none) ∧
      ∀ block out err, e₁.run block = (out, some err) → out = block ∧ err = .unkeyed "Cascade" := by
  have mask : (ofCipher (Mask.cipher 4 1)).Built Stage.InPlace :=
    .stage (Mask.lawful 4 1).inPlace
  have once : onceMask.Built Stage.InPlace := .stage (Mask.lawful 4 2).inPlace
  obtain ⟨-, -, herr, -⟩ := cascade_never_mixed mask once mask rfl
    [.setKey .encrypting [1, 2, 3, 4], .setKey .decrypting [5, 6, 7, 8]] rfl
  exact ⟨_, _, rfl, rfl, herr⟩

end Engine

end SealedText
