import SealedText.Base61
import SealedText.Proofs.Blocks
import SealedText.Proofs.Outcomes

/-!
# Base61 reads back what it writes

A group of bytes is a number below `256 ^ bytes`, which its digits are enough to write, and the
length of the group follows from how many digits there are. Joining the digits of the groups and
cutting them again finds the same groups, since all but the last have eleven.
-/

namespace SealedText.Base61

theorem digit?_symbol : ∀ d < 61, digit? (symbol d) = some d := by decide

theorem isSkipped_symbol : ∀ d < 61, isSkipped (symbol d) = false := by decide

/-! ## Numbers and digits -/

theorem length_digits : ∀ count value, (digits count value).length = count
  | 0, _ => rfl
  | count + 1, value => by rw [digits, List.length_cons, length_digits count]

theorem lt_of_mem_digits : ∀ {count value : Nat}, ∀ d ∈ digits count value, d < 61
  | 0, _, d, h => by cases h
  | count + 1, value, d, h => by
    rcases List.mem_cons.1 h with rfl | h
    · exact Nat.mod_lt value (by decide)
    · exact lt_of_mem_digits d h

theorem value_digits : ∀ {count v : Nat}, v < 61 ^ count → value (digits count v) = v
  | 0, v, h => by
    have hv : v = 0 := by omega
    rw [hv]
    rfl
  | count + 1, v, h => by
    have hdiv : v / 61 < 61 ^ count := by
      rw [Nat.div_lt_iff_lt_mul (by decide), ← Nat.pow_succ]
      exact h
    have ih : value (digits count (v / 61)) = v / 61 := value_digits hdiv
    change value (digits count (v / 61)) * 61 + v % 61 = v
    rw [ih, Nat.div_add_mod']

/-- A group of bytes has as many symbols as its largest number needs, and no more. -/
theorem symbolCount_le_iff {bytes : Nat} (h : bytes ≤ 8) (count : Nat) :
    symbolCount bytes ≤ count ↔ 256 ^ bytes ≤ 61 ^ count := by
  have hsmall : ∀ b ≤ 8, ∀ c ≤ 11, symbolCount b ≤ c ↔ 256 ^ b ≤ 61 ^ c := by decide
  rcases Nat.le_total count 11 with hcount | hcount
  · exact hsmall bytes h count hcount
  · have hpow : 61 ^ 11 ≤ 61 ^ count := Nat.pow_le_pow_right (by decide) hcount
    have hmax : ∀ b ≤ 8, symbolCount b ≤ 11 ∧ 256 ^ b ≤ 61 ^ 11 := by decide
    obtain ⟨hle, hfits⟩ := hmax bytes h
    exact iff_of_true (hle.trans hcount) (hfits.trans hpow)

theorem byteCount?_symbolCount : ∀ n ≤ 8, 0 < n →
    byteCount? (symbolCount n) = some n ∧ 0 < symbolCount n ∧ symbolCount n ≤ groupSymbols := by
  decide

/-! ## Groups -/

/-- The digits of a group of bytes. -/
def groupDigits (group : Bytes) : List Nat := digits (symbolCount group.length) (Bytes.toNat group)

theorem value_groupDigits {group : Bytes} (hle : group.length ≤ 8) :
    value (groupDigits group) = Bytes.toNat group := by
  have hfits := (symbolCount_le_iff hle (symbolCount group.length)).1 le_rfl
  exact value_digits ((Bytes.toNat_lt group).trans_le hfits)

theorem decodeGroup_groupDigits {group : Bytes} (hpos : 0 < group.length) (hle : group.length ≤ 8) :
    decodeGroup (groupDigits group) = .ok group := by
  obtain ⟨hcount, -, -⟩ := byteCount?_symbolCount group.length hle hpos
  have hvalue := value_groupDigits hle
  have hlen : (groupDigits group).length = symbolCount group.length := length_digits ..
  have hlt : Bytes.toNat group < Nat.pow 256 group.length := Bytes.toNat_lt group
  rw [decodeGroup, hlen, hcount]
  simp only [hvalue, if_pos hlt, Bytes.ofNat_toNat]

theorem decodeGroups_map : ∀ {groups : List Bytes}, (∀ g ∈ groups, 0 < g.length ∧ g.length ≤ 8) →
    decodeGroups (groups.map groupDigits) = .ok groups.flatten
  | [], _ => rfl
  | g :: groups, h => by
    obtain ⟨⟨hpos, hle⟩, hrest⟩ := List.forall_mem_cons.1 h
    rw [List.map_cons, decodeGroups, decodeGroup_groupDigits hpos hle, ok_bind,
      decodeGroups_map hrest]
    rfl

/-- Cutting the digits of all groups finds the digits of each. -/
theorem blocksOf_groupDigits (data : Bytes) :
    blocksOf groupSymbols ((blocksOf groupBytes data).flatMap groupDigits) =
      (blocksOf groupBytes data).map groupDigits := by
  fun_induction blocksOf groupBytes data with
  | case1 => exact blocksOf_nil _
  | case2 x xs ih =>
    have hlen : (x :: xs.take (groupBytes - 1)).length ≤ 8 :=
      length_firstBlock_le (by decide) x xs
    obtain ⟨-, hpos, hle⟩ := byteCount?_symbolCount _ hlen (Nat.succ_pos _)
    rw [List.flatMap_cons, List.map_cons, ← ih]
    by_cases hrest : xs.drop (groupBytes - 1) = []
    · rw [hrest, blocksOf_nil, List.flatMap_nil, List.append_nil, blocksOf_nil]
      refine blocksOf_of_length_le ?_ ?_
      · rwa [← List.length_pos_iff, groupDigits, length_digits]
      · rwa [groupDigits, length_digits]
    · refine blocksOf_append (by decide) ?_ _
      have hfull : (x :: xs.take (groupBytes - 1)).length = 8 :=
        length_firstBlock (by decide) x hrest
      rw [groupDigits, length_digits, hfull]
      rfl

/-! ## Texts -/

theorem readDigits_map_symbol : ∀ {ds : List Nat}, (∀ d ∈ ds, d < 61) → ∀ position,
    readDigits position (ds.map symbol) = .ok ds
  | [], _, _ => rfl
  | d :: ds, h, position => by
    obtain ⟨hd, hds⟩ := List.forall_mem_cons.1 h
    rw [List.map_cons, readDigits, isSkipped_symbol d hd]
    simp only [digit?_symbol d hd, readDigits_map_symbol hds]
    rfl

/-- The digits that write a byte string. -/
def digitsOf (data : Bytes) : List Nat := (blocksOf groupBytes data).flatMap groupDigits

theorem lt_of_mem_digitsOf {data : Bytes} : ∀ d ∈ digitsOf data, d < 61 := by
  intro d hd
  obtain ⟨g, -, hg⟩ := List.mem_flatMap.1 hd
  exact lt_of_mem_digits d hg

theorem decodeGroups_digitsOf (data : Bytes) :
    decodeGroups (blocksOf groupSymbols (digitsOf data)) = .ok data := by
  have hgroups : ∀ g ∈ blocksOf groupBytes data, 0 < g.length ∧ g.length ≤ 8 :=
    fun g hg => length_of_mem_blocksOf_le (by decide) g hg
  rw [digitsOf, blocksOf_groupDigits, decodeGroups_map hgroups, flatten_blocksOf]

theorem toList_encode (data : Bytes) : (encode data).toList = (digitsOf data).map symbol := by
  rw [encode, String.toList_ofList, encodeChars, digitsOf, List.map_flatMap]
  rfl

theorem decode_encode (data : Bytes) : decode (encode data) = .ok data := by
  rw [decode, decodeChars, toList_encode, readDigits_map_symbol lt_of_mem_digitsOf, ok_bind,
    decodeGroups_digitsOf]

end SealedText.Base61
