import SealedText.Proofs.CascadeComposition
import SealedText.Proofs.Tags

/-!
# Tags of messages that come in pieces

A message that comes in pieces has the tag that it has as a whole, however it is cut
(`ofPieces_eq_tag`). The cipher need not be lawful for that: it is enough that every keyed engine
encrypts every block, and by a function of the key and the block.
-/

namespace SealedText

namespace Mac

/-- The tag of a message that comes in pieces. -/
def ofPieces (fresh : Engine) (key : Bytes) (pieces : List Bytes) : Except CipherError Bytes := do
  let m ← start fresh key
  let m ← pieces.foldlM extend m
  m.finish

variable {n : Nat} {encrypt : Bytes → Bytes}

theorem extendAll_of_after (hn : 0 < n) : ∀ (pieces : List Bytes) {seen : Bytes} {m : Mac},
    After n encrypt seen m → (m.buffer = [] → seen = []) →
    ∃ m₁, pieces.foldlM extend m = .ok m₁ ∧ After n encrypt (seen ++ pieces.flatten) m₁ ∧
      (m₁.buffer = [] → seen ++ pieces.flatten = [])
  | [], seen, m, h, hempty => by
    rw [List.flatten_nil, List.append_nil]
    exact ⟨m, rfl, h, hempty⟩
  | piece :: pieces, seen, m, h, hempty => by
    obtain ⟨m₁, hextend, h₁, hempty₁⟩ := extend_of_after hn piece h hempty
    obtain ⟨m₂, hpieces, h₂, hempty₂⟩ := extendAll_of_after hn pieces h₁ hempty₁
    rw [List.append_assoc, ← List.flatten_cons] at h₂ hempty₂
    refine ⟨m₂, ?_, h₂, hempty₂⟩
    rw [List.foldlM_cons, hextend, ok_bind, hpieces]

theorem ofPieces_eq {fresh e : Engine} {key : Bytes} (hn : 0 < fresh.blockSize)
    (hkey : fresh.keyedWith .encrypting key = .ok e) (h : e.Encrypts fresh.blockSize encrypt)
    (pieces : List Bytes) :
    ofPieces fresh key pieces = .ok (tag encrypt fresh.blockSize pieces.flatten) := by
  obtain ⟨m, hstart, hm⟩ := start_of_keyedWith hkey h
  obtain ⟨m₁, hpieces, hm₁, hempty⟩ := extendAll_of_after hn pieces hm fun _ => rfl
  rw [ofPieces, hstart, ok_bind, hpieces, ok_bind, finish_of_after hn hm₁ hempty]
  rfl

end Mac

/-- For a family of engines with blocks of at least eight bytes, each of which encrypts every block
by a function of the key and the block: the tag of a message in pieces, empty ones and none at all
included, is the first eight bytes of the chain over the message, filled up with zeros to the least
positive whole number of blocks. So all ways of cutting a message give the tag of the whole. -/
theorem ofPieces_eq_tag {fresh : Engine} {encrypt : Bytes → Bytes → Bytes}
    (hsize : tagSize ≤ fresh.blockSize)
    (hfamily : ∀ key e, fresh.keyedWith .encrypting key = .ok e →
      e.Encrypts fresh.blockSize (encrypt key))
    {key : Bytes} {e : Engine} (hkey : fresh.keyedWith .encrypting key = .ok e)
    (pieces : List Bytes) :
    let message := pieces.flatten
    let whole := message ++ List.replicate (Mac.wholeLength fresh.blockSize message.length -
      message.length) 0
    IsLeast {k | fresh.blockSize ∣ k ∧ 0 < k ∧ message.length ≤ k} whole.length ∧
      (∀ b ∈ blocksOf fresh.blockSize whole, b.length = fresh.blockSize) ∧
      Mac.ofPieces fresh key pieces =
        .ok (((blocksOf fresh.blockSize whole).foldl (fun state b => encrypt key (state.xor b))
          (List.replicate fresh.blockSize 0)).take 8) ∧
      macOf fresh key message = Mac.ofPieces fresh key pieces ∧
      ∀ others : List Bytes, others.flatten = message →
        Mac.ofPieces fresh key others = Mac.ofPieces fresh key pieces := by
  intro message whole
  have hn : 0 < fresh.blockSize := Nat.lt_of_lt_of_le (by decide) hsize
  have hencrypts := hfamily key e hkey
  obtain ⟨hleast, hblocks⟩ := Mac.filled_spec hn message
  have hpieces := Mac.ofPieces_eq hn hkey hencrypts pieces
  refine ⟨hleast, hblocks, hpieces, ?_, fun others hothers => ?_⟩
  · rw [hpieces, macOf_eq hn hkey hencrypts]
  · rw [hpieces, Mac.ofPieces_eq hn hkey hencrypts, hothers]

/-- A cascade of masks is such a family. Nine bytes come in two full pieces, an empty one and a last
one, and fill two blocks of eight. -/
theorem nestedMasks_ofPieces :
    let key : Bytes := [1, 2, 3, 4, 5, 6, 7, 8, 9, 10, 11, 12]
    Mac.ofPieces Engine.nestedMasks key [[1, 2, 3, 4, 5], [], [6, 7, 8], [9]] =
      .ok [8, 10, 1, 6, 17, 6, 7, 22] := by
  intro key
  have hfamily : ∀ key e, Engine.nestedMasks.keyedWith .encrypting key = .ok e →
      e.Encrypts 8 (Engine.composition .encrypting (Engine.nestedMasks.keyedLeaves key)) :=
    fun key e he => Engine.encrypts_of_keyedWith Engine.built_nestedMasks.lawful_leaves he
  obtain ⟨e, hkey⟩ := (Engine.lawful_of_built Engine.built_nestedMasks).keyable .encrypting key rfl
  obtain ⟨-, -, htag, -⟩ :=
    ofPieces_eq_tag (by decide) hfamily hkey [[1, 2, 3, 4, 5], [], [6, 7, 8], [9]]
  rw [htag]
  decide +kernel

end SealedText
