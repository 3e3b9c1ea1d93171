import SealedText.Proofs.Blocks
import SealedText.Proofs.Outcomes
import SealedText.Proofs.TextBytes

/-!
# Base64 reads back what it writes

Bytes are cut into full groups of three and a last group of one to three. The symbols of the full
groups give their digits, and the digits the bytes again (`readSymbols_encodeBytes`); the last group
goes through `decodeTail`, with its padding if there is any (`decodeTail_encodeBytes`).
-/

namespace SealedText.Base64

/-- All symbols are ASCII, none is the padding, and each has its own digit. -/
structure Alphabet.Sound (a : Alphabet) : Prop where
  digit?_symbol : ∀ n < 64, a.digit? (a.symbol n) = some n
  symbol_ne_padByte : ∀ n < 64, a.symbol n ≠ padByte
  symbol_lt : ∀ n < 64, a.symbol n < 128

theorem sound_url : url.Sound := ⟨by decide, by decide, by decide⟩

theorem sound_standard : standard.Sound := ⟨by decide, by decide, by decide⟩

variable {a : Alphabet}

theorem forall_mem_encodeBytes {P : UInt8 → Prop} (hs : ∀ n < 64, P (a.symbol n))
    (hp : a.padded = true → P padByte) : ∀ data : Bytes, ∀ b ∈ encodeBytes a data, P b := by
  have hpadding (n : Nat) : ∀ b ∈ a.padding n, P b := by
    intro b hb
    rw [Alphabet.padding] at hb
    split at hb
    next hpad =>
      rw [(List.mem_replicate.1 hb).2]
      exact hp hpad
    next => cases hb
  intro data
  fun_induction encodeBytes a data with
  | case1 => simp
  | case2 x n =>
    have hx := x.toNat_lt
    simp only [List.forall_mem_cons]
    exact ⟨hs _ (by omega), hs _ (by omega), hpadding 2⟩
  | case3 x y n =>
    have hx := x.toNat_lt
    have hy := y.toNat_lt
    simp only [List.forall_mem_cons]
    exact ⟨hs _ (by omega), hs _ (by omega), hs _ (by omega), hpadding 1⟩
  | case4 x y z rest n ih =>
    have hx := x.toNat_lt
    have hy := y.toNat_lt
    have hz := z.toNat_lt
    simp only [List.forall_mem_cons]
    exact ⟨hs _ (by omega), hs _ (by omega), hs _ (by omega), hs _ (by omega), ih⟩

/-! ## Full groups -/

theorem encodeBytes_append : ∀ {full : Bytes}, full.length % 3 = 0 → ∀ last : Bytes,
    encodeBytes a (full ++ last) = encodeBytes a full ++ encodeBytes a last
  | [], _, _ => by rw [encodeBytes, List.nil_append, List.nil_append]
  | [_], h, _ => by simp at h
  | [_, _], h, _ => by simp at h
  | x :: y :: z :: rest, h, last => by
    have hrest : rest.length % 3 = 0 := by
      simp only [List.length_cons] at h
      omega
    simp only [List.cons_append, encodeBytes, encodeBytes_append hrest last]

theorem length_encodeBytes : ∀ {full : Bytes}, full.length % 3 = 0 →
    (encodeBytes a full).length = full.length / 3 * 4
  | [], _ => rfl
  | [_], h => by simp at h
  | [_, _], h => by simp at h
  | x :: y :: z :: rest, h => by
    have hrest : rest.length % 3 = 0 := by
      simp only [List.length_cons] at h
      omega
    simp only [encodeBytes, List.length_cons, length_encodeBytes hrest]
    omega

theorem readSymbols_symbol (h : a.Sound) {d : Nat} (hd : d < 64) {offset : Nat} {rest : Bytes}
    {ds : List Nat} (hrest : readSymbols a (offset + 1) rest = .ok ds) :
    readSymbols a offset (a.symbol d :: rest) = .ok (d :: ds) := by
  rw [readSymbols, h.digit?_symbol d hd]
  simp only [hrest]
  rfl

theorem readSymbols_encodeBytes (h : a.Sound) : ∀ {full : Bytes}, full.length % 3 = 0 →
    ∀ offset, ∃ ds, readSymbols a offset (encodeBytes a full) = .ok ds ∧ groupBytes ds = full
  | [], _, _ => ⟨[], rfl, rfl⟩
  | [_], hlen, _ => by simp at hlen
  | [_, _], hlen, _ => by simp at hlen
  | x :: y :: z :: rest, hlen, offset => by
    have hrest : rest.length % 3 = 0 := by
      simp only [List.length_cons] at hlen
      omega
    obtain ⟨ds, hds, hback⟩ := readSymbols_encodeBytes h hrest (offset + 1 + 1 + 1 + 1)
    have hx := x.toNat_lt
    have hy := y.toNat_lt
    have hz := z.toNat_lt
    generalize hn : (x.toNat * 256 + y.toNat) * 256 + z.toNat = n
    have hvalue : ((n / 262144 * 64 + n / 4096 % 64) * 64 + n / 64 % 64) * 64 + n % 64 =
        Bytes.toNat [x, y, z] := by
      have hnat : Bytes.toNat [x, y, z] = n := by
        rw [← hn, Bytes.toNat]
        simp
      omega
    refine ⟨n / 262144 :: n / 4096 % 64 :: n / 64 % 64 :: n % 64 :: ds, ?_, ?_⟩
    · rw [encodeBytes, hn]
      exact readSymbols_symbol h (by omega) (readSymbols_symbol h (by omega)
        (readSymbols_symbol h (by omega) (readSymbols_symbol h (by omega) hds)))
    · rw [groupBytes, hvalue, hback]
      exact congrArg (· ++ rest) (Bytes.ofNat_toNat [x, y, z])

/-! ## The last group -/

theorem readTail_symbol (h : a.Sound) {d : Nat} (hd : d < 64) (start : Nat)
    (symbols : List (UInt8 × Nat)) (rest : Bytes) :
    readTail a start symbols 0 (a.symbol d :: rest) =
      readTail a start (symbols ++ [(a.symbol d, d)]) 0 rest := by
  rw [readTail, if_neg (h.symbol_ne_padByte d hd), if_neg (Nat.lt_irrefl 0)]
  simp only [h.digit?_symbol d hd]

theorem readTail_replicate (start : Nat) {symbols : List (UInt8 × Nat)} (hs : 2 ≤ symbols.length) :
    ∀ n pads, readTail a start symbols pads (List.replicate n padByte) = .ok (symbols, pads + n)
  | 0, _ => rfl
  | n + 1, pads => by
    rw [List.replicate_succ, readTail, if_pos rfl, if_neg (by omega),
      readTail_replicate start hs n (pads + 1)]
    congr 2
    omega

theorem readTail_padding (start : Nat) {symbols : List (UInt8 × Nat)} (hs : 2 ≤ symbols.length)
    (n : Nat) :
    readTail a start symbols 0 (a.padding n) = .ok (symbols, if a.padded then n else 0) := by
  rw [Alphabet.padding]
  split
  · rw [readTail_replicate start hs, Nat.zero_add]
  · rfl

/-- Digits that write the number of some bytes, and zeros in the spare bits, read as these bytes. -/
theorem decodeTail_of_readTail {start : Nat} {tail last : Bytes} {symbols : List (UInt8 × Nat)}
    {pads : Nat} (hread : readTail a start [] 0 tail = .ok (symbols, pads)) (hne : tail ≠ [])
    (hlen : 2 ≤ symbols.length) (hpads : a.padded = true → (symbols.length + pads) % 4 = 0)
    (hcount : symbols.length * 6 / 8 = last.length)
    (hbits : symbols.foldl (fun acc s => acc * 64 + s.2) 0 =
      Bytes.toNat last * (1 <<< (symbols.length * 6 - last.length * 8))) :
    decodeTail a start tail = .ok last := by
  have hempty : ¬ tail.isEmpty = true := by rwa [List.isEmpty_iff]
  have hshort : ¬ symbols.length < 2 := by omega
  have hpadded : ¬ (a.padded = true ∧ (symbols.length + pads) % 4 ≠ 0) := fun h => h.2 (hpads h.1)
  have hspare : 0 < 1 <<< (symbols.length * 6 - last.length * 8) := by
    rw [Nat.one_shiftLeft]
    exact Nat.two_pow_pos _
  rw [decodeTail, hread, ok_bind]
  simp only [if_neg hempty, if_neg hshort, if_neg hpadded, hcount, hbits, Nat.mul_mod_left, ne_eq,
    not_true_eq_false, if_false, Nat.mul_div_cancel _ hspare, Bytes.ofNat_toNat]
  rfl

theorem decodeTail_single (h : a.Sound) (start : Nat) (x : UInt8) :
    decodeTail a start (encodeBytes a [x]) = .ok [x] := by
  have hx := x.toNat_lt
  have hvalue : Bytes.toNat [x] = x.toNat := Nat.zero_add _
  generalize hn : x.toNat * 16 = n
  have hread : readTail a start [] 0 (encodeBytes a [x]) =
      .ok ([(a.symbol (n / 64), n / 64), (a.symbol (n % 64), n % 64)],
        if a.padded then 2 else 0) := by
    rw [encodeBytes, hn, readTail_symbol h (by omega), readTail_symbol h (by omega),
      readTail_padding start (by simp)]
    rfl
  refine decodeTail_of_readTail hread (by simp [encodeBytes]) (by simp)
    (fun hpad => by simp [hpad]) (by simp) ?_
  change (0 * 64 + n / 64) * 64 + n % 64 = Bytes.toNat [x] * 16
  omega

theorem decodeTail_pair (h : a.Sound) (start : Nat) (x y : UInt8) :
    decodeTail a start (encodeBytes a [x, y]) = .ok [x, y] := by
  have hx := x.toNat_lt
  have hy := y.toNat_lt
  have hvalue : Bytes.toNat [x, y] = x.toNat * 256 + y.toNat :=
    congrArg (· * 256 + y.toNat) (Nat.zero_add _)
  generalize hn : (x.toNat * 256 + y.toNat) * 4 = n
  have hread : readTail a start [] 0 (encodeBytes a [x, y]) =
      .ok ([(a.symbol (n / 4096), n / 4096), (a.symbol (n / 64 % 64), n / 64 % 64),
        (a.symbol (n % 64), n % 64)], if a.padded then 1 else 0) := by
    rw [encodeBytes, hn, readTail_symbol h (by omega), readTail_symbol h (by omega),
      readTail_symbol h (by omega), readTail_padding start (by simp)]
    rfl
  refine decodeTail_of_readTail hread (by simp [encodeBytes]) (by simp)
    (fun hpad => by simp [hpad]) (by simp) ?_
  change ((0 * 64 + n / 4096) * 64 + n / 64 % 64) * 64 + n % 64 = Bytes.toNat [x, y] * 4
  omega

theorem decodeTail_triple (h : a.Sound) (start : Nat) (x y z : UInt8) :
    decodeTail a start (encodeBytes a [x, y, z]) = .ok [x, y, z] := by
  have hx := x.toNat_lt
  have hy := y.toNat_lt
  have hz := z.toNat_lt
  have hvalue : Bytes.toNat [x, y, z] = (x.toNat * 256 + y.toNat) * 256 + z.toNat :=
    congrArg (fun n => (n * 256 + y.toNat) * 256 + z.toNat) (Nat.zero_add _)
  generalize hn : (x.toNat * 256 + y.toNat) * 256 + z.toNat = n at hvalue
  have hread : readTail a start [] 0 (encodeBytes a [x, y, z]) =
      .ok ([(a.symbol (n / 262144), n / 262144), (a.symbol (n / 4096 % 64), n / 4096 % 64),
        (a.symbol (n / 64 % 64), n / 64 % 64), (a.symbol (n % 64), n % 64)], 0) := by
    rw [encodeBytes, hn, readTail_symbol h (by omega), readTail_symbol h (by omega),
      readTail_symbol h (by omega), readTail_symbol h (by omega)]
    rfl
  refine decodeTail_of_readTail hread (by simp [encodeBytes]) (by simp) (fun _ => by simp)
    (by simp) ?_
  change (((0 * 64 + n / 262144) * 64 + n / 4096 % 64) * 64 + n / 64 % 64) * 64 + n % 64 =
    Bytes.toNat [x, y, z] * 1
  omega

theorem decodeTail_encodeBytes (h : a.Sound) (start : Nat) : ∀ {last : Bytes}, last ≠ [] →
    last.length ≤ 3 → decodeTail a start (encodeBytes a last) = .ok last
  | [], hne, _ => absurd rfl hne
  | [x], _, _ => decodeTail_single h start x
  | [x, y], _, _ => decodeTail_pair h start x y
  | [x, y, z], _, _ => decodeTail_triple h start x y z
  | _ :: _ :: _ :: _ :: _, _, hlen => by
    simp only [List.length_cons] at hlen
    omega

/-! ## Whole texts -/

theorem length_encodeBytes_last (a : Alphabet) : ∀ {last : Bytes}, last ≠ [] → last.length ≤ 3 →
    2 ≤ (encodeBytes a last).length ∧ (encodeBytes a last).length ≤ 4
  | [], hne, _ => absurd rfl hne
  | [x], _, _ => by
    rw [encodeBytes, Alphabet.padding]
    cases a.padded <;> simp
  | [x, y], _, _ => by
    rw [encodeBytes, Alphabet.padding]
    cases a.padded <;> simp
  | [x, y, z], _, _ => by simp [encodeBytes]
  | _ :: _ :: _ :: _ :: _, _, hlen => by
    simp only [List.length_cons] at hlen
    omega

/-- Full groups, and a last group that is not empty. -/
theorem exists_groups {data : Bytes} (hne : data ≠ []) :
    ∃ full last : Bytes, data = full ++ last ∧ full.length % 3 = 0 ∧ last ≠ [] ∧
      last.length ≤ 3 := by
  have hpos := List.length_pos_iff.2 hne
  refine ⟨data.take ((data.length - 1) / 3 * 3), data.drop ((data.length - 1) / 3 * 3),
    (List.take_append_drop ..).symm, ?_, ?_, ?_⟩
  · rw [List.length_take]
    omega
  · rw [← List.length_pos_iff, List.length_drop]
    omega
  · rw [List.length_drop]
    omega

theorem decodeBytes_encodeBytes (h : a.Sound) (data : Bytes) :
    decodeBytes a (encodeBytes a data) = .ok data := by
  by_cases hne : data = []
  · subst hne
    simp only [encodeBytes, decodeBytes, List.length_nil, Nat.zero_mod, Nat.zero_ne_one, false_and,
      if_false]
    rfl
  obtain ⟨full, last, rfl, hfull, hlast, hle⟩ := exists_groups hne
  obtain ⟨ds, hds, hback⟩ := readSymbols_encodeBytes h hfull 0
  obtain ⟨hlow, hhigh⟩ := length_encodeBytes_last a hlast hle
  have hlen := length_encodeBytes (a := a) hfull
  have hstart : tailStart (encodeBytes a full ++ encodeBytes a last).length =
      (encodeBytes a full).length := by
    rw [tailStart, List.length_append, hlen]
    omega
  have hmod : ¬ (encodeBytes a full ++ encodeBytes a last).length % 4 = 1 := by
    rw [List.length_append, hlen]
    omega
  rw [encodeBytes_append hfull, decodeBytes]
  simp only [hmod, false_and, if_false, hstart, List.take_left, List.drop_left]
  refine bind_eq_ok.2 ⟨ds, hds, bind_eq_ok.2 ⟨last, decodeTail_encodeBytes h _ hlast hle, ?_⟩⟩
  rw [hback]
  rfl

theorem decode_encode (h : a.Sound) (data : Bytes) : decode a (encode a data) = .ok data := by
  have hascii : ∀ b ∈ encodeBytes a data, b < 128 :=
    forall_mem_encodeBytes h.symbol_lt (fun _ => by decide) data
  rw [decode, encode, toUTF8_asciiText hascii]
  exact decodeBytes_encodeBytes h data

end SealedText.Base64
