import SealedText.Link
import SealedText.Proofs.Base61RoundTrip
import SealedText.Proofs.Base64RoundTrip
import SealedText.Token

/-!
# Tokens in delivered texts

`Link.Delivers` says what a link may look like when it arrives: anything may stand before it that
does not hold its start, white space may be anywhere in the token, and the text may end after the
token or go on from a slash. `unwrap` then finds the token (`unwrap_of_delivers`), because a token
has neither blanks nor slashes in either encoding.
-/

namespace SealedText

namespace Link

/-- `delivered` holds the link of `token`, as mail and chat may leave it: the first occurrence of
`start` is the link's, and what follows is the token up to white space, then nothing or a slash and
anything. -/
def Delivers (start token delivered : String) : Prop :=
  ∃ before w tail : String, delivered = before ++ start ++ w ++ tail ∧
    (∀ b a : String, delivered = b ++ start ++ a → before.length ≤ b.length) ∧
    w.toList.filter (!isBlank ·) = token.toList ∧ ∀ c ∈ tail.toList.head?, c = '/'

theorem after?_of_first {start : List Char} (hne : start ≠ []) : ∀ {before rest : List Char},
    (∀ b a, before ++ (start ++ rest) = b ++ (start ++ a) → before.length ≤ b.length) →
      after? start (before ++ (start ++ rest)) = some rest
  | [], rest, _ => by
    obtain ⟨c, cs, rfl⟩ := List.exists_cons_of_ne_nil hne
    rw [List.nil_append, List.cons_append, after?, if_pos, ← List.cons_append, List.drop_left]
    rw [List.isPrefixOf_iff_prefix]
    exact List.prefix_append (c :: cs) rest
  | x :: before, rest, h => by
    have hno : ¬ start.isPrefixOf (x :: (before ++ (start ++ rest))) = true := by
      rw [List.isPrefixOf_iff_prefix]
      rintro ⟨a, ha⟩
      have hle := h [] a ha.symm
      simp at hle
    rw [List.cons_append, after?, if_neg hno]
    refine after?_of_first hne fun b a hba => ?_
    have hle := h (x :: b) a (congrArg (x :: ·) hba)
    simpa using hle

theorem takeWhile_token {w tail : List Char} (hw : ∀ c ∈ w, c ≠ '/')
    (htail : ∀ c ∈ tail.head?, c = '/') : (w ++ tail).takeWhile (· ≠ '/') = w := by
  rw [List.takeWhile_append_of_pos fun c hc => decide_eq_true (hw c hc)]
  cases tail with
  | nil => rw [List.takeWhile_nil, List.append_nil]
  | cons c tail =>
    have hc : c = '/' := htail c rfl
    rw [List.takeWhile_cons_of_neg (by simp [hc]), List.append_nil]

/-- A token without slashes is found again. -/
theorem unwrap_of_delivers {start token delivered : String} (hstart : start ≠ "")
    (htoken : ∀ c ∈ token.toList, c ≠ '/') (h : Delivers start token delivered) :
    unwrap start delivered = token := by
  obtain ⟨before, w, tail, rfl, hfirst, hw, htail⟩ := h
  have hne : start.toList ≠ [] := by rwa [ne_eq, String.toList_eq_nil_iff]
  have hempty : ¬ start.toList.isEmpty = true := by rwa [List.isEmpty_iff]
  have hlist : (before ++ start ++ w ++ tail).toList =
      before.toList ++ (start.toList ++ (w.toList ++ tail.toList)) := by
    simp only [String.toList_append, List.append_assoc]
  have hafter : after? start.toList (before ++ start ++ w ++ tail).toList =
      some (w.toList ++ tail.toList) := by
    rw [hlist]
    refine after?_of_first hne fun b a hba => ?_
    have hle := hfirst (String.ofList b) (String.ofList a) (by
      rw [← String.toList_inj, hlist, hba]
      simp only [String.toList_append, String.toList_ofList, List.append_assoc])
    rwa [← String.length_toList, ← String.length_toList, String.toList_ofList] at hle
  have hslash : ∀ c ∈ w.toList, c ≠ '/' := by
    rintro c hc rfl
    exact htoken '/' (hw ▸ List.mem_filter.2 ⟨hc, rfl⟩) rfl
  rw [unwrap, tokenPart, if_neg hempty, hafter]
  simp only [takeWhile_token hslash htail, hw, String.ofList_toList]

end Link

namespace TokenEncoding

theorem decode_encode (e : TokenEncoding) (data : Bytes) : e.decode (e.encode data) = .ok data := by
  cases e with
  | base64url =>
    rw [decode, encode, Base64.decode_encode Base64.sound_url]
    rfl
  | base61 =>
    rw [decode, encode, Base61.decode_encode]
    rfl

/-- The characters that tokens are made of. -/
def alphabet : TokenEncoding → List Char
  | base64url => (List.range 64).map fun n => Char.ofNat (Base64.url.symbol n).toNat
  | base61 => (List.range 61).map Base61.symbol

theorem mem_alphabet (e : TokenEncoding) (data : Bytes) :
    ∀ c ∈ (e.encode data).toList, c ∈ e.alphabet := by
  intro c hc
  cases e with
  | base64url =>
    rw [encode, Base64.encode, Base64.toList_asciiText] at hc
    obtain ⟨b, hb, rfl⟩ := List.mem_map.1 hc
    have hsymbol : ∀ b ∈ Base64.encodeBytes Base64.url data, ∃ n < 64, Base64.url.symbol n = b :=
      Base64.forall_mem_encodeBytes (fun n hn => ⟨n, hn, rfl⟩) (fun h => by cases h) data
    obtain ⟨n, hn, rfl⟩ := hsymbol b hb
    exact List.mem_map.2 ⟨n, List.mem_range.2 hn, rfl⟩
  | base61 =>
    rw [encode, Base61.toList_encode] at hc
    obtain ⟨d, hd, rfl⟩ := List.mem_map.1 hc
    exact List.mem_map.2 ⟨d, List.mem_range.2 (Base61.lt_of_mem_digitsOf d hd), rfl⟩

/-- Tokens have neither slashes nor blanks. -/
theorem plain_of_mem_encode (e : TokenEncoding) (data : Bytes) :
    ∀ c ∈ (e.encode data).toList, c ≠ '/' ∧ isBlank c = false := by
  have hplain : ∀ c ∈ e.alphabet, c ≠ '/' ∧ isBlank c = false := by
    cases e with
    | base64url =>
      have hsymbol : ∀ n < 64, Char.ofNat (Base64.url.symbol n).toNat ≠ '/' ∧
          isBlank (Char.ofNat (Base64.url.symbol n).toNat) = false := by decide
      exact List.forall_mem_map.2 fun n hn => hsymbol n (List.mem_range.1 hn)
    | base61 =>
      have hsymbol : ∀ d < 61, Base61.symbol d ≠ '/' ∧ isBlank (Base61.symbol d) = false := by
        decide
      exact List.forall_mem_map.2 fun d hd => hsymbol d (List.mem_range.1 hd)
  exact fun c hc => hplain c (e.mem_alphabet data c hc)

end TokenEncoding

end SealedText
