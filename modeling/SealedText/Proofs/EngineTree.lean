import Mathlib
import SealedText.Cipher.Engine

/-!
# The tree of an engine

An engine is a tree with ciphers at its leaves. Keying cuts the key into one slice for each leaf,
from left to right (`subkeys`), and an engine that was keyed with success holds exactly those
slices, all for one direction (`holds_of_setKey`). Such an engine runs its leaves one after another
(`run_of_holds`), so what it computes is `composition` of the keyed leaves, whatever the nesting.
-/

namespace SealedText

/-- Under a key of the right length a block keeps its length, as it does for a cipher that works in
place. -/
def BlockCipher.InPlace (c : BlockCipher) : Prop :=
  ∀ direction key block, key.length = c.keySize → block.length = c.blockSize →
    ((c.keyed key).run direction block).length = c.blockSize

theorem BlockCipher.Lawful.inPlace {c : BlockCipher} (h : c.Lawful) : c.InPlace
  | .encrypting, key, block => h.length_encrypt key block
  | .decrypting, key, block => h.length_decrypt key block

/-! ## Slices of a key -/

/-- Consecutive slices of the given lengths. -/
def slices : List Nat → Bytes → List Bytes
  | [], _ => []
  | n :: ns, key => key.take n :: slices ns (key.drop n)

theorem slices_append :
    ∀ (ms ns : List Nat) (key : Bytes),
      slices (ms ++ ns) key = slices ms key ++ slices ns (key.drop ms.sum)
  | [], ns, key => by simp [slices]
  | m :: ms, ns, key => by
    simp only [List.cons_append, slices, slices_append ms ns, List.drop_drop, List.sum_cons]

/-- Bytes past the last slice do not matter. -/
theorem slices_take :
    ∀ {ns : List Nat} {n : Nat} (key : Bytes), ns.sum ≤ n → slices ns (key.take n) = slices ns key
  | [], _, _, _ => rfl
  | m :: ms, n, key, h => by
    rw [List.sum_cons] at h
    rw [slices, slices, List.take_take, Nat.min_eq_left (by omega), List.drop_take,
      slices_take _ (by omega)]

theorem length_slices : ∀ (ns : List Nat) (key : Bytes), (slices ns key).length = ns.length
  | [], _ => rfl
  | n :: ns, key => by rw [slices, List.length_cons, List.length_cons, length_slices ns]

theorem map_length_slices :
    ∀ {ns : List Nat} {key : Bytes}, ns.sum ≤ key.length → (slices ns key).map List.length = ns
  | [], _, _ => rfl
  | n :: ns, key, h => by
    rw [List.sum_cons] at h
    rw [slices, List.map_cons, List.length_take, Nat.min_eq_left (by omega),
      map_length_slices (by rw [List.length_drop]; omega)]

/-- The slices are the whole key, with no gap and no overlap. -/
theorem flatten_slices :
    ∀ {ns : List Nat} {key : Bytes}, key.length = ns.sum → (slices ns key).flatten = key
  | [], key, h => (List.eq_nil_of_length_eq_zero h).symm
  | n :: ns, key, h => by
    rw [List.sum_cons] at h
    rw [slices, List.flatten_cons, flatten_slices (by rw [List.length_drop]; omega),
      List.take_append_drop]

namespace Engine

/-! ## Leaves and what they compose to -/

/-- The ciphers of an engine, from left to right. -/
def leaves : Engine → List BlockCipher
  | .stage s => [s.cipher]
  | .cascade first second third _ => first.leaves ++ second.leaves ++ third.leaves

theorem keySize_eq_sum : ∀ e : Engine, e.keySize = (e.leaves.map (·.keySize)).sum
  | .stage s => by simp [keySize, leaves]
  | .cascade first second third _ => by
    simp only [keySize, leaves, List.map_append, List.sum_append, keySize_eq_sum first,
      keySize_eq_sum second, keySize_eq_sum third]

theorem blockSize_eq_head : ∀ e : Engine, e.leaves.head?.map (·.blockSize) = some e.blockSize
  | .stage s => rfl
  | .cascade first second third _ => by
    have h := blockSize_eq_head first
    rw [leaves, blockSize, List.append_assoc, List.head?_append]
    cases hf : first.leaves.head? with
    | none => simp [hf] at h
    | some c => simpa [hf] using h

/-- The slice of the key for each leaf. -/
def subkeys (e : Engine) (key : Bytes) : List Bytes := slices (e.leaves.map (·.keySize)) key

/-- The leaves, each under its slice of the key. -/
def keyedLeaves (e : Engine) (key : Bytes) : List KeyedCipher :=
  List.zipWith BlockCipher.keyed e.leaves (e.subkeys key)

/-- Encrypt from left to right, or decrypt from right to left. -/
def composition : Direction → List KeyedCipher → Bytes → Bytes
  | .encrypting, ks, block => ks.foldl (fun b k => k.encrypt b) block
  | .decrypting, ks, block => ks.foldr (fun k b => k.decrypt b) block

theorem composition_append_encrypting (ks ls : List KeyedCipher) (block : Bytes) :
    composition .encrypting (ks ++ ls) block =
      composition .encrypting ls (composition .encrypting ks block) :=
  List.foldl_append

theorem composition_append_decrypting (ks ls : List KeyedCipher) (block : Bytes) :
    composition .decrypting (ks ++ ls) block =
      composition .decrypting ks (composition .decrypting ls block) :=
  List.foldr_append

theorem length_composition {n : Nat} {direction : Direction} {ks : List KeyedCipher}
    (h : ∀ k ∈ ks, ∀ b : Bytes, b.length = n → (k.run direction b).length = n) {block : Bytes}
    (hb : block.length = n) : (composition direction ks block).length = n := by
  induction ks generalizing block with
  | nil => cases direction <;> exact hb
  | cons k ks ih =>
    have hk := h k List.mem_cons_self
    have ih := @ih fun l hl => h l (List.mem_cons_of_mem k hl)
    cases direction with
    | encrypting => exact ih (hk block hb)
    | decrypting => exact hk _ (ih hb)

/-- If each pair of functions undoes itself, so does the composition of all. -/
theorem composition_inverse {n : Nat} {ks : List KeyedCipher}
    (h : ∀ k ∈ ks, ∀ b : Bytes, b.length = n →
      ((k.encrypt b).length = n ∧ k.decrypt (k.encrypt b) = b) ∧
        (k.decrypt b).length = n ∧ k.encrypt (k.decrypt b) = b) {block : Bytes}
    (hb : block.length = n) :
    composition .decrypting ks (composition .encrypting ks block) = block ∧
      composition .encrypting ks (composition .decrypting ks block) = block := by
  induction ks generalizing block with
  | nil => exact ⟨rfl, rfl⟩
  | cons k ks ih =>
    have hks := fun l hl => h l (List.mem_cons_of_mem k hl)
    obtain ⟨⟨hel, hde⟩, -⟩ := h k List.mem_cons_self block hb
    have hdec : ∀ l ∈ ks, ∀ b : Bytes, b.length = n → (l.run .decrypting b).length = n :=
      fun l hl b hb => (hks l hl b hb).2.1
    have hlen := length_composition hdec hb
    constructor
    · change k.decrypt (composition .decrypting ks
        (composition .encrypting ks (k.encrypt block))) = _
      rw [(ih hks hel).1, hde]
    · change composition .encrypting ks
        (k.encrypt (k.decrypt (composition .decrypting ks block))) = _
      rw [(h k List.mem_cons_self _ hlen).2.2, (ih hks hb).2]

theorem keyedLeaves_stage (s : Stage) {key : Bytes} (hk : key.length = s.cipher.keySize) :
    (Engine.stage s).keyedLeaves key = [s.cipher.keyed key] := by
  simp [keyedLeaves, subkeys, leaves, slices, ← hk]

theorem length_subkeys (e : Engine) (key : Bytes) : (e.subkeys key).length = e.leaves.length := by
  rw [subkeys, length_slices, List.length_map]

/-- The leaves of a stage get the slices of the slice that the stage gets. -/
theorem keyedLeaves_cascade (first second third : Engine) (keyed : Option Direction) (key : Bytes) :
    (cascade first second third keyed).keyedLeaves key =
      first.keyedLeaves (key.take first.keySize) ++
        second.keyedLeaves ((key.drop first.keySize).take second.keySize) ++
        third.keyedLeaves (key.drop (first.keySize + second.keySize)) := by
  have hsub : (cascade first second third keyed).subkeys key =
      first.subkeys (key.take first.keySize) ++
        second.subkeys ((key.drop first.keySize).take second.keySize) ++
        third.subkeys (key.drop (first.keySize + second.keySize)) := by
    simp only [subkeys, leaves, List.map_append, slices_append, List.sum_append, ← keySize_eq_sum]
    rw [slices_take _ (Nat.le_of_eq (keySize_eq_sum first).symm),
      slices_take _ (Nat.le_of_eq (keySize_eq_sum second).symm)]
  rw [keyedLeaves, hsub, leaves,
    List.zipWith_append (by simp only [List.length_append, length_subkeys]),
    List.zipWith_append (by rw [length_subkeys])]
  rfl

theorem exists_of_mem_zipWith_slices {k : KeyedCipher} :
    ∀ {cs : List BlockCipher} {key : Bytes}, key.length = (cs.map (·.keySize)).sum →
      k ∈ List.zipWith BlockCipher.keyed cs (slices (cs.map (·.keySize)) key) →
      ∃ c ∈ cs, ∃ subkey : Bytes, subkey.length = c.keySize ∧ k = c.keyed subkey
  | [], _, _, h => by simp at h
  | c :: cs, key, hk, h => by
    rw [List.map_cons, List.sum_cons] at hk
    rw [List.map_cons, slices, List.zipWith_cons_cons] at h
    rcases List.mem_cons.1 h with rfl | h
    · exact ⟨c, List.mem_cons_self, _, by rw [List.length_take]; omega, rfl⟩
    · obtain ⟨d, hd, hsub⟩ :=
        exists_of_mem_zipWith_slices (by rw [List.length_drop]; omega) h
      exact ⟨d, List.mem_cons_of_mem c hd, hsub⟩

/-- A keyed leaf is a cipher of the tree under a key of its length. -/
theorem exists_of_mem_keyedLeaves {e : Engine} {key : Bytes} (hk : key.length = e.keySize)
    {k : KeyedCipher} (h : k ∈ e.keyedLeaves key) :
    ∃ c ∈ e.leaves, ∃ subkey : Bytes, subkey.length = c.keySize ∧ k = c.keyed subkey :=
  exists_of_mem_zipWith_slices (hk.trans (keySize_eq_sum e)) h

/-! ## Keying -/

theorem length_parts {key : Bytes} {m n k : Nat} (hk : key.length = m + n + k) :
    (key.take m).length = m ∧ ((key.drop m).take n).length = n ∧ (key.drop (m + n)).length = k := by
  simp only [List.length_take, List.length_drop]
  omega

/-- Every leaf holds its slice of the key, and every cascade and leaf the direction. -/
def Holds : Engine → Direction → Bytes → Prop
  | .stage s, direction, key => s.held = some (direction, s.cipher.keyed key)
  | .cascade first second third keyed, direction, key =>
    keyed = some direction ∧ first.Holds direction (key.take first.keySize) ∧
      second.Holds direction ((key.drop first.keySize).take second.keySize) ∧
      third.Holds direction (key.drop (first.keySize + second.keySize))

/-- No stage refuses a call. -/
def Willing : Engine → Prop
  | .stage s => ∀ n, s.refuses n = false
  | .cascade first second third _ => first.Willing ∧ second.Willing ∧ third.Willing

/-- A stage of a cascade after an attempt to key the cascade: as it was, or as its own call left
it. -/
def Tried (direction : Direction) (e tried : Engine) : Prop :=
  tried = e ∨ ∃ key, tried = (e.setKey direction key).1

/-- All that keying a cascade can do. -/
theorem setKey_cascade_cases (first second third : Engine) (keyed : Option Direction)
    (direction : Direction) (key : Bytes) :
    let e := cascade first second third keyed
    (key.length ≠ e.keySize ∧ e.setKey direction key = (e, some (e.wrongKey key))) ∨
      (key.length = e.keySize ∧ ∃ first₁ second₁ third₁ err,
        e.setKey direction key = (cascade first₁ second₁ third₁ none, some err) ∧
          Tried direction first first₁ ∧ Tried direction second second₁ ∧
          Tried direction third third₁) ∨
      key.length = e.keySize ∧ ∃ first₁ second₁ third₁,
        e.setKey direction key = (cascade first₁ second₁ third₁ (some direction), none) ∧
          first.setKey direction (key.take first.keySize) = (first₁, none) ∧
          second.setKey direction ((key.drop first.keySize).take second.keySize) =
            (second₁, none) ∧
          third.setKey direction (key.drop (first.keySize + second.keySize)) = (third₁, none) := by
  intro e
  by_cases hk : key.length = e.keySize
  · right
    have hk' : ¬ key.length ≠ first.keySize + second.keySize + third.keySize := fun h => h hk
    rcases hf : first.setKey direction (key.take first.keySize) with ⟨first₁, _ | err⟩
    · rcases hs : second.setKey direction ((key.drop first.keySize).take second.keySize) with
        ⟨second₁, _ | err⟩
      · rcases ht : third.setKey direction (key.drop (first.keySize + second.keySize)) with
          ⟨third₁, _ | err⟩
        · refine .inr ⟨hk, first₁, second₁, third₁, ?_, rfl, rfl, rfl⟩
          simp only [e, setKey, if_neg hk', hf, hs, ht]
        · refine .inl ⟨hk, first₁, second₁, third₁, err, ?_, .inr ⟨_, by rw [hf]⟩,
            .inr ⟨_, by rw [hs]⟩, .inr ⟨_, by rw [ht]⟩⟩
          simp only [e, setKey, if_neg hk', hf, hs, ht]
      · refine .inl ⟨hk, first₁, second₁, third, err, ?_, .inr ⟨_, by rw [hf]⟩,
          .inr ⟨_, by rw [hs]⟩, .inl rfl⟩
        simp only [e, setKey, if_neg hk', hf, hs]
    · refine .inl ⟨hk, first₁, second, third, err, ?_, .inr ⟨_, by rw [hf]⟩, .inl rfl, .inl rfl⟩
      simp only [e, setKey, if_neg hk', hf]
  · have hk' : key.length ≠ first.keySize + second.keySize + third.keySize := hk
    exact .inl ⟨hk, by simp only [e, setKey, if_pos hk']⟩

theorem setKey_stage_cases (s : Stage) (direction : Direction) (key : Bytes) :
    let tried := { s with calls := s.calls + 1 }
    ((s.refuses s.calls = true ∨ key.length ≠ s.cipher.keySize) ∧
        (stage s).setKey direction key = (stage tried, some (wrongKey (stage s) key))) ∨
      s.refuses s.calls = false ∧ key.length = s.cipher.keySize ∧
        (stage s).setKey direction key =
          (stage { tried with held := some (direction, s.cipher.keyed key) }, none) := by
  intro tried
  by_cases h : s.refuses s.calls = true ∨ key.length ≠ s.cipher.keySize
  · refine .inl ⟨h, ?_⟩
    simp only [setKey, Bool.or_eq_true, decide_eq_true_eq, h, if_true, tried]
  · simp only [not_or, Bool.not_eq_true, ne_eq, Decidable.not_not] at h
    refine .inr ⟨h.1, h.2, ?_⟩
    simp [setKey, h.1, h.2, tried]

theorem Tried.of {direction : Direction} {e tried : Engine} {P : Engine → Prop}
    (h : Tried direction e tried) (he : P e) (hkey : ∀ key, P (e.setKey direction key).1) :
    P tried := by
  rcases h with rfl | ⟨key, rfl⟩
  · exact he
  · exact hkey key

theorem leaves_setKey (direction : Direction) :
    ∀ (e : Engine) (key : Bytes), (e.setKey direction key).1.leaves = e.leaves
  | .stage s, key => by
    rcases setKey_stage_cases s direction key with ⟨-, h⟩ | ⟨-, -, h⟩ <;> rw [h] <;> rfl
  | .cascade first second third keyed, key => by
    have ih₁ := leaves_setKey direction first
    have ih₂ := leaves_setKey direction second
    have ih₃ := leaves_setKey direction third
    rcases setKey_cascade_cases first second third keyed direction key with
      ⟨-, h⟩ | ⟨-, first₁, second₁, third₁, err, h, hf, hs, ht⟩ |
        ⟨-, first₁, second₁, third₁, h, hf, hs, ht⟩
    · rw [h]
    · have hf := hf.of (P := fun t => t.leaves = first.leaves) rfl ih₁
      have hs := hs.of (P := fun t => t.leaves = second.leaves) rfl ih₂
      have ht := ht.of (P := fun t => t.leaves = third.leaves) rfl ih₃
      rw [h, leaves, leaves, hf, hs, ht]
    · rw [h, leaves, leaves, ← ih₁, ← ih₂, ← ih₃, hf, hs, ht]

theorem willing_setKey (direction : Direction) :
    ∀ {e : Engine}, e.Willing → ∀ key, (e.setKey direction key).1.Willing
  | .stage s, he, key => by
    rcases setKey_stage_cases s direction key with ⟨-, h⟩ | ⟨-, -, h⟩ <;> rw [h] <;> exact he
  | .cascade first second third keyed, he, key => by
    have ih₁ := willing_setKey direction he.1
    have ih₂ := willing_setKey direction he.2.1
    have ih₃ := willing_setKey direction he.2.2
    rcases setKey_cascade_cases first second third keyed direction key with
      ⟨-, h⟩ | ⟨-, first₁, second₁, third₁, err, h, hf, hs, ht⟩ |
        ⟨-, first₁, second₁, third₁, h, hf, hs, ht⟩
    · rw [h]
      exact he
    · rw [h]
      exact ⟨hf.of he.1 ih₁, hs.of he.2.1 ih₂, ht.of he.2.2 ih₃⟩
    · have h₁ := ih₁ (key.take first.keySize)
      have h₂ := ih₂ ((key.drop first.keySize).take second.keySize)
      have h₃ := ih₃ (key.drop (first.keySize + second.keySize))
      rw [hf] at h₁
      rw [hs] at h₂
      rw [ht] at h₃
      rw [h]
      exact ⟨h₁, h₂, h₃⟩

theorem keySize_setKey (direction : Direction) (e : Engine) (key : Bytes) :
    (e.setKey direction key).1.keySize = e.keySize := by
  rw [keySize_eq_sum, leaves_setKey, ← keySize_eq_sum]

theorem blockSize_setKey (direction : Direction) (e : Engine) (key : Bytes) :
    (e.setKey direction key).1.blockSize = e.blockSize := by
  have h := blockSize_eq_head (e.setKey direction key).1
  rw [leaves_setKey, blockSize_eq_head] at h
  exact (Option.some.inj h).symm

theorem leaves_clear : ∀ e : Engine, e.clear.leaves = e.leaves
  | .stage _ => rfl
  | .cascade first second third _ => by
    rw [clear, leaves, leaves, leaves_clear first, leaves_clear second, leaves_clear third]

theorem willing_clear : ∀ {e : Engine}, e.Willing → e.clear.Willing
  | .stage _, h => h
  | .cascade _ _ _ _, h => ⟨willing_clear h.1, willing_clear h.2.1, willing_clear h.2.2⟩

/-- Keying succeeds only with a key of the right length, and then every leaf holds its slice. -/
theorem holds_of_setKey (direction : Direction) :
    ∀ {e e₁ : Engine} {key : Bytes}, e.setKey direction key = (e₁, none) →
      key.length = e.keySize ∧ e₁.Holds direction key
  | .stage s, e₁, key, he => by
    rcases setKey_stage_cases s direction key with ⟨-, h⟩ | ⟨-, hk, h⟩ <;> rw [h] at he
    · simp at he
    · cases he
      exact ⟨hk, rfl⟩
  | .cascade first second third keyed, e₁, key, he => by
    rcases setKey_cascade_cases first second third keyed direction key with
      ⟨-, h⟩ | ⟨-, first₁, second₁, third₁, err, h, -⟩ |
        ⟨hk, first₁, second₁, third₁, h, hf, hs, ht⟩
    · simp [h] at he
    · simp [h] at he
    · rw [h] at he
      cases he
      have hks₁ : first₁.keySize = first.keySize := by
        rw [← keySize_setKey direction first (key.take first.keySize), hf]
      have hks₂ : second₁.keySize = second.keySize := by
        rw [← keySize_setKey direction second ((key.drop first.keySize).take second.keySize), hs]
      refine ⟨hk, rfl, ?_, ?_, ?_⟩
      · rw [hks₁]
        exact (holds_of_setKey direction hf).2
      · rw [hks₁, hks₂]
        exact (holds_of_setKey direction hs).2
      · rw [hks₁, hks₂]
        exact (holds_of_setKey direction ht).2

theorem setKey_of_willing (direction : Direction) :
    ∀ {e : Engine} {key : Bytes}, e.Willing → key.length = e.keySize →
      ∃ e₁, e.setKey direction key = (e₁, none)
  | .stage s, key, he, hk => by
    rcases setKey_stage_cases s direction key with ⟨h | h, -⟩ | ⟨-, -, h⟩
    · rw [he] at h
      cases h
    · exact absurd hk h
    · exact ⟨_, h⟩
  | .cascade first second third keyed, key, he, hk => by
    have hk' : key.length = first.keySize + second.keySize + third.keySize := hk
    obtain ⟨hkf, hks, hkt⟩ := length_parts hk'
    obtain ⟨first₁, hf⟩ := setKey_of_willing direction he.1 hkf
    obtain ⟨second₁, hs⟩ := setKey_of_willing direction he.2.1 hks
    obtain ⟨third₁, ht⟩ := setKey_of_willing direction he.2.2 hkt
    exact ⟨cascade first₁ second₁ third₁ (some direction), by simp [setKey, hk', hf, hs, ht]⟩

/-! ## Running -/

theorem length_composition_keyedLeaves {n : Nat} {e : Engine} {key block : Bytes}
    (direction : Direction) (hl : ∀ c ∈ e.leaves, c.InPlace ∧ c.blockSize = n)
    (hk : key.length = e.keySize)
    (hb : block.length = n) : (composition direction (e.keyedLeaves key) block).length = n := by
  refine length_composition (fun k hmem b hb => ?_) hb
  obtain ⟨c, hc, subkey, hsub, rfl⟩ := exists_of_mem_keyedLeaves hk hmem
  obtain ⟨hin, hn⟩ := hl c hc
  rw [← hn] at hb ⊢
  exact hin direction subkey b hsub hb

/-- An engine that holds a key runs its leaves one after another. -/
theorem run_of_holds {n : Nat} {direction : Direction} :
    ∀ {e : Engine} {key block : Bytes}, (∀ c ∈ e.leaves, c.InPlace ∧ c.blockSize = n) →
      e.Holds direction key → key.length = e.keySize → block.length = n →
      e.run block = (composition direction (e.keyedLeaves key) block, none)
  | .stage s, key, block, hl, he, hk, hb => by
    have hn : ¬ block.length ≠ s.cipher.blockSize := by
      rw [(hl s.cipher (by simp [leaves])).2]
      exact fun h => h hb
    have he : s.held = some (direction, s.cipher.keyed key) := he
    rw [keyedLeaves_stage s hk, run, he]
    simp only [if_neg hn]
    cases direction <;> rfl
  | .cascade first second third keyed, key, block, hl, he, hk, hb => by
    obtain ⟨rfl, hf, hs, ht⟩ := he
    have hk' : key.length = first.keySize + second.keySize + third.keySize := hk
    have hlf : ∀ c ∈ first.leaves, c.InPlace ∧ c.blockSize = n :=
      fun c hc => hl c (by simp [leaves, hc])
    have hls : ∀ c ∈ second.leaves, c.InPlace ∧ c.blockSize = n :=
      fun c hc => hl c (by simp [leaves, hc])
    have hlt : ∀ c ∈ third.leaves, c.InPlace ∧ c.blockSize = n :=
      fun c hc => hl c (by simp [leaves, hc])
    obtain ⟨hkf, hks, hkt⟩ := length_parts hk'
    rw [keyedLeaves_cascade]
    cases direction with
    | encrypting =>
      have hb₁ := length_composition_keyedLeaves .encrypting hlf hkf hb
      have hb₂ := length_composition_keyedLeaves .encrypting hls hks hb₁
      rw [composition_append_encrypting, composition_append_encrypting]
      simp only [run, run_of_holds hlf hf hkf hb, run_of_holds hls hs hks hb₁,
        run_of_holds hlt ht hkt hb₂]
    | decrypting =>
      have hb₁ := length_composition_keyedLeaves .decrypting hlt hkt hb
      have hb₂ := length_composition_keyedLeaves .decrypting hls hks hb₁
      rw [composition_append_decrypting, composition_append_decrypting]
      simp only [run, run_of_holds hlt ht hkt hb, run_of_holds hls hs hks hb₁,
        run_of_holds hlf hf hkf hb₂]

/-- A block of another length is left as it is. -/
theorem run_of_holds_of_ne {n : Nat} {direction : Direction} :
    ∀ {e : Engine} {key block : Bytes}, (∀ c ∈ e.leaves, c.blockSize = n) →
      e.Holds direction key → block.length ≠ n →
      e.run block = (block, some (.badLength block.length n))
  | .stage s, key, block, hl, he, hb => by
    have hn : s.cipher.blockSize = n := hl s.cipher (by simp [leaves])
    have he : s.held = some (direction, s.cipher.keyed key) := he
    rw [run, he]
    simp only [hn, if_pos hb]
  | .cascade first second third keyed, key, block, hl, he, hb => by
    obtain ⟨rfl, hf, -, ht⟩ := he
    have hlf : ∀ c ∈ first.leaves, c.blockSize = n := fun c hc => hl c (by simp [leaves, hc])
    have hlt : ∀ c ∈ third.leaves, c.blockSize = n := fun c hc => hl c (by simp [leaves, hc])
    cases direction with
    | encrypting => simp only [run, run_of_holds_of_ne hlf hf hb]
    | decrypting => simp only [run, run_of_holds_of_ne hlt ht hb]

/-! ## Building -/

/-- Engines built from stages by chaining, and used in any way on the way. -/
inductive Built (P : Stage → Prop) : Engine → Prop
  | stage {s : Stage} : P s → Built P (.stage s)
  | chained {first second third e : Engine} : Built P first → Built P second → Built P third →
    chain first second third = .ok e → Built P e
  | keyed {e : Engine} (direction : Direction) (key : Bytes) : Built P e →
    Built P (e.setKey direction key).1
  | cleared {e : Engine} : Built P e → Built P e.clear

theorem chain_cases {first second third e : Engine} (h : chain first second third = .ok e) :
    second.blockSize = first.blockSize ∧ third.blockSize = first.blockSize ∧
      e = cascade first second third none := by
  simp only [chain] at h
  split_ifs at h with hs ht
  cases h
  exact ⟨Decidable.not_not.1 hs, Decidable.not_not.1 ht, rfl⟩

theorem blockSize_clear (e : Engine) : e.clear.blockSize = e.blockSize := by
  have h := blockSize_eq_head e.clear
  rw [leaves_clear, blockSize_eq_head] at h
  exact (Option.some.inj h).symm

/-- What every stage's cipher has, every leaf has, and all leaves share the block size. -/
theorem Built.leaves {P : Stage → Prop} {Q : BlockCipher → Prop} (hPQ : ∀ s, P s → Q s.cipher)
    {e : Engine} (h : Built P e) : ∀ c ∈ e.leaves, Q c ∧ c.blockSize = e.blockSize := by
  induction h with
  | stage hs =>
    intro c hc
    rw [Engine.leaves, List.mem_singleton] at hc
    subst hc
    exact ⟨hPQ _ hs, rfl⟩
  | chained _ _ _ hc ihf ihs iht =>
    obtain ⟨hs, ht, rfl⟩ := chain_cases hc
    rw [hs] at ihs
    rw [ht] at iht
    intro c hc
    simp only [Engine.leaves, List.mem_append] at hc
    rcases hc with (hc | hc) | hc
    · exact ihf c hc
    · exact ihs c hc
    · exact iht c hc
  | keyed direction key _ ih => rwa [leaves_setKey, blockSize_setKey]
  | cleared _ ih => rwa [leaves_clear, blockSize_clear]

theorem Built.willing {P : Stage → Prop} (hP : ∀ s, P s → ∀ n, s.refuses n = false) {e : Engine}
    (h : Built P e) : e.Willing := by
  induction h with
  | stage hs => exact hP _ hs
  | chained _ _ _ hc ihf ihs iht =>
    obtain ⟨-, -, rfl⟩ := chain_cases hc
    exact ⟨ihf, ihs, iht⟩
  | keyed direction key _ ih => exact willing_setKey direction ih key
  | cleared _ ih => exact willing_clear ih

end Engine

end SealedText
