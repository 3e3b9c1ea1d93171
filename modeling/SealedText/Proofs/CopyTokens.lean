import SealedText.Gzip.Token
import SealedText.Proofs.InflateReads

/-!
# Tokens give the data back

A copy is made only of bytes that were compared with those that come next (`get!_of_agreement`), so
each token makes what was written so far a longer start of the data (`stand_tokensOf`).
-/

namespace SealedText.Gzip

variable {data : ByteArray} {i limit : Nat}

/-- Output with what a token stands for. -/
def Token.write (out : ByteArray) : Token → ByteArray
  | .literal b => out.push b
  | .copy length distance => copyBack out distance length

/-- A copy within the bounds of the format. -/
def Token.InRange : Token → Prop
  | .literal _ => True
  | .copy length distance =>
    minCopy ≤ length ∧ length ≤ maxCopy ∧ 0 < distance ∧ distance ≤ maxDistance

/-- Tokens within the bounds stand for the data up to a place. -/
structure Stand (data : ByteArray) (tokens : List Token) (i : Nat) : Prop where
  within : i ≤ data.size
  write : tokens.foldl Token.write .empty = data.extract 0 i
  inRange : ∀ t ∈ tokens, t.InRange

/-! ## Copies -/

theorem get!_eq_getElem (h : i < data.size) : data.get! i = data[i] :=
  getElem!_pos data.data i h

theorem get!_extract {stop : Nat} (h : i < stop) (hstop : stop ≤ data.size) :
    (data.extract 0 stop).get! i = data.get! i := by
  have hi : i < (data.extract 0 stop).size := by
    rw [ByteArray.size_extract]
    omega
  rw [get!_eq_getElem hi, get!_eq_getElem (by omega), ByteArray.getElem_extract]
  simp only [Nat.zero_add]

theorem push_extract (h : i < data.size) :
    (data.extract 0 i).push (data.get! i) = data.extract 0 (i + 1) := by
  rw [get!_eq_getElem h]
  refine ByteArray.ext ?_
  rw [ByteArray.data_push, ByteArray.data_extract, ByteArray.data_extract]
  exact (Array.push_extract_getElem h).trans (by rw [Nat.zero_min])

theorem agreement_le (data : ByteArray) : ∀ (limit i j : Nat), agreement data i j limit ≤ limit
  | 0, _, _ => Nat.le_refl 0
  | limit + 1, i, j => by
    have ih := agreement_le data limit (i + 1) (j + 1)
    rw [agreement]
    split_ifs <;> omega

theorem get!_of_agreement : ∀ {limit i j k : Nat}, k < agreement data i j limit →
    data.get! (i + k) = data.get! (j + k)
  | limit + 1, i, j, k, hk => by
    rw [agreement] at hk
    split_ifs at hk with hsame
    · cases k with
      | zero => exact beq_iff_eq.1 hsame
      | succ k =>
        have hrest := get!_of_agreement (Nat.lt_of_succ_lt_succ hk)
        rwa [Nat.succ_add, Nat.succ_add] at hrest
    · exact absurd hk (Nat.not_lt_zero k)

/-- A copy of bytes that are the same as the next ones makes a longer start of the data. -/
theorem copyBack_extract {distance : Nat} (hpos : 0 < distance) : ∀ {count i : Nat},
    distance ≤ i → i + count ≤ data.size →
      (∀ k < count, data.get! (i - distance + k) = data.get! (i + k)) →
        copyBack (data.extract 0 i) distance count = data.extract 0 (i + count)
  | 0, i, _, _, _ => rfl
  | count + 1, i, hback, hwithin, hsame => by
    have hsize : (data.extract 0 i).size = i := by
      rw [ByteArray.size_extract]
      omega
    have hfirst := hsame 0 (Nat.succ_pos count)
    rw [Nat.add_zero, Nat.add_zero] at hfirst
    simp only [copyBack]
    rw [hsize, if_pos hback, get!_extract (by omega) (by omega), hfirst, push_extract (by omega),
      copyBack_extract hpos (by omega) (by omega) fun k hk => ?_]
    · congr 1
      omega
    · have hnext := hsame (k + 1) (Nat.succ_lt_succ hk)
      rwa [show i - distance + (k + 1) = i + 1 - distance + k by omega,
        show i + (k + 1) = i + 1 + k by omega] at hnext

/-! ## Searching -/

/-- All places that are kept are in front of the next one. -/
structure Places.Behind (p : Places) : Prop where
  latest : ∀ h, p.latest.getD h 0 ≤ p.earlier.size
  earlier : ∀ k, p.earlier.getD k 0 ≤ p.earlier.size

namespace Places

variable {p : Places}

theorem behind_empty : empty.Behind :=
  ⟨fun h => by simp [empty, Array.getD_eq_getD_getElem?, Array.getElem?_replicate]; split <;> simp,
    fun k => by simp [empty]⟩

theorem size_note (p : Places) (data : ByteArray) :
    (p.note data).earlier.size = p.earlier.size + 1 := by
  simp only [note]
  split_ifs <;> simp

theorem Behind.note (h : p.Behind) (data : ByteArray) : (p.note data).Behind := by
  have hlatest := h.latest
  have hearlier := h.earlier
  have hpush : ∀ {x : Nat}, x ≤ p.earlier.size → ∀ k, (p.earlier.push x).getD k 0 ≤
      p.earlier.size + 1 := by
    intro x hx k
    have hk := hearlier k
    rw [Array.getD_eq_getD_getElem?] at hk ⊢
    rw [Array.getElem?_push]
    split_ifs
    · exact Nat.le_succ_of_le hx
    · exact Nat.le_succ_of_le hk
  refine ⟨fun k => ?_, fun k => ?_⟩
  · have hk := hlatest k
    rw [size_note]
    simp only [Places.note]
    split_ifs
    · rw [Array.getD_eq_getD_getElem?] at hk ⊢
      rw [Array.set!_eq_setIfInBounds, Array.getElem?_setIfInBounds]
      split_ifs
      · exact Nat.le_refl _
      · exact Nat.zero_le _
      · exact Nat.le_succ_of_le hk
    · exact Nat.le_succ_of_le hk
  · rw [size_note]
    simp only [Places.note]
    split_ifs
    · exact hpush (hlatest _) k
    · exact hpush (Nat.zero_le _) k

theorem Behind.noteMany (data : ByteArray) : ∀ (count : Nat) {p : Places}, p.Behind →
    (p.noteMany data count).Behind ∧
      (p.noteMany data count).earlier.size = p.earlier.size + count
  | 0, _, h => ⟨h, rfl⟩
  | count + 1, p, h => by
    obtain ⟨hmany, hsize⟩ := Behind.noteMany data count (h.note data)
    rw [size_note] at hsize
    exact ⟨hmany, by rw [Places.noteMany, hsize]; omega⟩

end Places

/-- What a search has found so far: nothing, or a copy of bytes in front of a place. -/
structure Copies (data : ByteArray) (i limit : Nat) (best : Nat × Nat) : Prop where
  short : best.1 ≤ limit
  pos : 0 < best.1 → 0 < best.2
  near : best.2 ≤ maxDistance
  there : best.2 ≤ i
  same : ∀ k < best.1, data.get! (i - best.2 + k) = data.get! (i + k)

theorem copies_none (data : ByteArray) (i limit : Nat) : Copies data i limit (0, 0) :=
  ⟨Nat.zero_le _, fun h => absurd h (Nat.lt_irrefl 0), Nat.zero_le _, Nat.zero_le _,
    fun k hk => absurd hk (Nat.not_lt_zero k)⟩

theorem copies_bestCopy {places : Places} (hplaces : places.Behind)
    (hsize : places.earlier.size = i) : ∀ {effort next : Nat} {best : Nat × Nat}, next ≤ i → Copies data i limit best →
      Copies data i limit (bestCopy data places i limit effort next best)
  | 0, _, _, _, hbest => hbest
  | effort + 1, next, best, hnext, hbest => by
    simp only [bestCopy]
    split_ifs with hstop hlonger
    · exact hbest
    all_goals
      refine copies_bestCopy hplaces hsize (hsize ▸ hplaces.earlier _) ?_
    · simp only [Bool.or_eq_true, decide_eq_true_eq, not_or] at hstop
      obtain ⟨⟨hpos, -⟩, hfar⟩ := hstop
      have hback : i - (i + 1 - next) = next - 1 := by omega
      refine ⟨agreement_le .., fun _ => by simp only []; omega, by simp only []; omega,
        by simp only []; omega, fun k hk => ?_⟩
      simp only [hback] at hk ⊢
      exact get!_of_agreement hk
    · exact hbest

theorem Stand.literal {tokens : List Token} (h : Stand data tokens i) (hi : i < data.size) :
    Stand data (tokens ++ [.literal data[i]]) (i + 1) where
  within := hi
  write := by
    rw [List.foldl_append, h.write, ← get!_eq_getElem hi]
    exact push_extract hi
  inRange t ht := by
    rcases List.mem_append.1 ht with ht | ht
    · exact h.inRange t ht
    · rw [List.mem_singleton.1 ht]
      trivial

theorem Stand.copy {tokens : List Token} {length distance : Nat} (h : Stand data tokens i)
    (hcopies : Copies data i (min maxCopy (data.size - i)) (length, distance))
    (hlength : minCopy ≤ length) : Stand data (tokens ++ [.copy length distance]) (i + length) := by
  have hshort := hcopies.short
  have hi := h.within
  have hpos : 0 < length := Nat.lt_of_lt_of_le (by decide) hlength
  simp only [] at hshort
  refine ⟨by omega, ?_, fun t ht => ?_⟩
  · rw [List.foldl_append, h.write]
    exact copyBack_extract (hcopies.pos hpos) hcopies.there (by omega) hcopies.same
  · rcases List.mem_append.1 ht with ht | ht
    · exact h.inRange t ht
    · rw [List.mem_singleton.1 ht]
      exact ⟨hlength, by omega, hcopies.pos hpos, hcopies.near⟩

theorem stand_findTokens (effort : Nat) : ∀ {fuel i : Nat} {places : Places} {found : List Token},
    places.Behind → places.earlier.size = i → data.size ≤ i + fuel → Stand data found.reverse i →
      Stand data (findTokens data effort fuel i places found).reverse data.size
  | 0, i, _, found, _, _, hfuel, h => by
    have hi := h.within
    rwa [findTokens, show data.size = i by omega]
  | fuel + 1, i, places, found, hplaces, hsize, hfuel, h => by
    rw [findTokens]
    split_ifs with hi
    · have hstart : (if min maxCopy (data.size - i) < minCopy then 0
          else places.latest.getD (Places.hashAt data i) 0) ≤ i := by
        split_ifs
        · exact Nat.zero_le i
        · exact hsize ▸ hplaces.latest _
      simp only []
      generalize (if min maxCopy (data.size - i) < minCopy then 0
        else places.latest.getD (Places.hashAt data i) 0) = start at hstart ⊢
      have hbest : Copies data i (min maxCopy (data.size - i))
          (bestCopy data places i (min maxCopy (data.size - i)) effort start (0, 0)) :=
        copies_bestCopy hplaces hsize hstart (copies_none ..)
      generalize bestCopy data places i (min maxCopy (data.size - i)) effort start (0, 0) = best
        at hbest ⊢
      split_ifs with hshort
      · refine stand_findTokens effort (hplaces.note data) (by rw [Places.size_note, hsize])
          (by omega) ?_
        rw [List.reverse_cons]
        exact h.literal hi
      · obtain ⟨hmany, hcount⟩ := Places.Behind.noteMany data best.1 hplaces
        refine stand_findTokens effort hmany (by rw [hcount, hsize]) ?_ ?_
        · rw [minCopy] at hshort
          omega
        · rw [List.reverse_cons]
          exact h.copy hbest (Nat.not_lt.1 hshort)
    · have hwithin := h.within
      rwa [show data.size = i by omega]

/-- Tokens with copies stand for all the data. -/
theorem stand_tokensOf (data : ByteArray) (effort : Nat) :
    Stand data (tokensOf data effort) data.size :=
  stand_findTokens effort Places.behind_empty rfl (Nat.le_add_left ..)
    ⟨Nat.zero_le _, by simp, by simp⟩

theorem stand_literals : ∀ n ≤ data.size,
    Stand data ((data.data.toList.take n).map .literal) n
  | 0, _ => ⟨Nat.zero_le _, by simp, by simp⟩
  | n + 1, hn => by
    have hget : (data.data.toList.take (n + 1)).map Token.literal =
        (data.data.toList.take n).map .literal ++ [.literal data[n]] := by
      rw [List.take_succ_eq_append_getElem (by simpa using Nat.lt_of_succ_le hn), List.map_append]
      rfl
    rw [hget]
    exact (stand_literals n (by omega)).literal hn

theorem stand_literalsOf (data : ByteArray) : Stand data (literalsOf data) data.size := by
  have hall := stand_literals data.size (Nat.le_refl data.size)
  rwa [List.take_of_length_le (by simp)] at hall

end SealedText.Gzip
