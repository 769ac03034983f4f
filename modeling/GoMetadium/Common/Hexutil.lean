import Mathlib
import GoMetadium.Lib.Except

set_option autoImplicit false

/-! # Hex quantities (`common/hexutil/hexutil.go`)

A JSON-RPC quantity is `0x` or `0X` followed by hex digits without a leading zero. A Go
string is a list of bytes here. `DecodeBig` checks the prefix and the digits
(`checkNumber`), refuses more than 64 digits, and assembles the value in `big.Word`s: word `i`
is read from the `bigWordNibbles` digits before position `end`, most significant first, and
`end` then moves left. `bigWordNibbles` is 16 on a 64-bit platform and 8 on a 32-bit one;
the model takes it as a parameter `n` (`decodeBigWith`), and the results hold for every
`0 < n`.

Two facts carry the proofs: a chunk of at most `n` digits fills a word of `4 * n` bits without
wrapping (`decodeWord_ok`), and the words of the chunks, taken right to left, are the base-16
value of the digits (`decodeWords_ok`). The value is `Nat.ofDigits 16` of the digits read
from the right, and `EncodeBig` writes `Nat.digits 16`, so Mathlib's digit lemmas give both
round trips.
-/

namespace GoMetadium.Hexutil

/-! ## The decoder -/

/-- The errors of `checkNumber` and `DecodeBig`. -/
inductive DecError where
  | emptyString
  | missingPrefix
  | emptyNumber
  | leadingZero
  | big256Range
  | errSyntax
  deriving DecidableEq, Repr

/-- `has0xPrefix(input)`. -/
def has0xPrefix (input : List UInt8) : Bool :=
  match input with
  | c0 :: c1 :: _ => c0 == 0x30 && (c1 == 0x78 || c1 == 0x58)
  | _ => false

/-- `checkNumber(input)`: the digits after the prefix, at least one and no leading zero. -/
def checkNumber (input : List UInt8) : Except DecError (List UInt8) :=
  if input.length = 0 then .error .emptyString
  else if !has0xPrefix input then .error .missingPrefix
  else
    let input := input.drop 2
    if input.length = 0 then .error .emptyNumber
    else if input.length > 1 ∧ input.head? = some 0x30 then .error .leadingZero
    else .ok input

/-- `badNibble`, `^uint64(0)`. -/
def badNibble : Nat := 2 ^ 64 - 1

/-- `decodeNibble(in)`. -/
def decodeNibble (c : UInt8) : Nat :=
  if 0x30 ≤ c ∧ c ≤ 0x39 then (c - 0x30).toNat
  else if 0x41 ≤ c ∧ c ≤ 0x46 then (c - 0x41 + 10).toNat
  else if 0x61 ≤ c ∧ c ≤ 0x66 then (c - 0x61 + 10).toNat
  else badNibble

/-- One round of the inner loop: `words[i] *= 16; words[i] += big.Word(nib)` in a word of
`4 * n` bits, after the check of the nibble. -/
def wordStep (n : Nat) (w : Nat) (c : UInt8) : Except DecError Nat :=
  if decodeNibble c = badNibble then .error .errSyntax
  else .ok ((w * 16 + decodeNibble c) % 2 ^ (4 * n))

/-- The inner loop over `raw[start:end]`. -/
def decodeWord (n : Nat) (chunk : List UInt8) : Except DecError Nat :=
  chunk.foldlM (wordStep n) 0

/-- The outer loop over the `k` words still to fill, from position `stop` (Go's `end`): a
negative `start` is raised to zero, which is what `stop - n` on `Nat` computes. -/
def decodeWords (n : Nat) (raw : List UInt8) : Nat → Nat → Except DecError (List Nat)
  | 0, _ => .ok []
  | k + 1, stop => do
    let start := stop - n
    let w ← decodeWord n ((raw.take stop).drop start)
    let ws ← decodeWords n raw k start
    .ok (w :: ws)

/-- `new(big.Int).SetBits(words)`: the words of `4 * n` bits, least significant first. -/
def setBits (n : Nat) : List Nat → Nat
  | [] => 0
  | w :: ws => w + 2 ^ (4 * n) * setBits n ws

/-- `DecodeBig(input)` with `bigWordNibbles = n`. -/
def decodeBigWith (n : Nat) (input : List UInt8) : Except DecError Nat := do
  let raw ← checkNumber input
  if raw.length > 64 then .error .big256Range
  else (decodeWords n raw (raw.length / n + 1) raw.length).map (setBits n)

/-- `bigWordNibbles` on a 64-bit platform. -/
def bigWordNibbles : Nat := 16

/-- `DecodeBig(input)`. -/
def decodeBig (input : List UInt8) : Except DecError Nat := decodeBigWith bigWordNibbles input

/-! ## The encoder -/

/-- The lower-case digit `fmt` writes for `d < 16`. -/
def hexDigit (d : Nat) : UInt8 :=
  if d < 10 then UInt8.ofNat (0x30 + d) else UInt8.ofNat (0x61 + (d - 10))

/-- The digits of `%x` for a positive number, most significant first. -/
def formatHex (x : Nat) : List UInt8 := (Nat.digits 16 x).reverse.map hexDigit

/-- `EncodeBig(bigint)` of a number that is not negative: `0x0`, or `%#x`. -/
def encodeBig (x : Nat) : List UInt8 :=
  if x.size = 0 then [0x30, 0x78, 0x30] else [0x30, 0x78] ++ formatHex x

/-! ## What a quantity is -/

/-- The hex digits, in either case. -/
def IsHexDigit (c : UInt8) : Prop :=
  (0x30 ≤ c ∧ c ≤ 0x39) ∨ (0x41 ≤ c ∧ c ≤ 0x46) ∨ (0x61 ≤ c ∧ c ≤ 0x66)

instance : DecidablePred IsHexDigit := fun c => by unfold IsHexDigit; infer_instance

/-- The digits of a quantity: one to 64 hex digits, and a leading zero only in `0`. -/
structure QuantityDigits (ds : List UInt8) : Prop where
  ne_nil : ds ≠ []
  length_le : ds.length ≤ 64
  digits : ∀ c ∈ ds, IsHexDigit c
  noLeadingZero : ds.length > 1 → ds.head? ≠ some 0x30

/-- The base-16 value of digits written most significant first. -/
def hexValue (ds : List UInt8) : Nat := Nat.ofDigits 16 (ds.reverse.map decodeNibble)

/-- ASCII lower case, which `EncodeBig` writes. -/
def asciiLower (c : UInt8) : UInt8 := if 0x41 ≤ c ∧ c ≤ 0x5A then c + 32 else c

/-! ## Digits -/

-- the facts about single bytes are checked over all 256 of them
theorem isHexDigit_iff (c : UInt8) : IsHexDigit c ↔ decodeNibble c ≠ badNibble := by
  revert c
  decide +kernel

theorem decodeNibble_lt {c : UInt8} (h : IsHexDigit c) : decodeNibble c < 16 := by
  revert c
  decide +kernel

/-- A digit `fmt` writes is a hex digit that reads back as its value. -/
theorem decodeNibble_hexDigit {d : Nat} (h : d < 16) : IsHexDigit (hexDigit d) ∧ decodeNibble (hexDigit d) = d := by
  interval_cases d <;> decide

/-- Reading a digit and writing it again lower-cases it. -/
theorem hexDigit_decodeNibble {c : UInt8} (h : IsHexDigit c) : hexDigit (decodeNibble c) = asciiLower c := by
  revert c
  decide +kernel

theorem hexValue_nil : hexValue [] = 0 := rfl

theorem hexValue_append (l₁ l₂ : List UInt8) :
    hexValue (l₁ ++ l₂) = hexValue l₂ + 16 ^ l₂.length * hexValue l₁ := by
  rw [hexValue, List.reverse_append, List.map_append, Nat.ofDigits_append, List.length_map,
    List.length_reverse]
  rfl

theorem hexValue_lt {ds : List UInt8} (h : ∀ c ∈ ds, IsHexDigit c) : hexValue ds < 16 ^ ds.length := by
  have hlen : (ds.reverse.map decodeNibble).length = ds.length := by simp
  rw [hexValue, ← hlen]
  apply Nat.ofDigits_lt_base_pow_length (by norm_num)
  intro d hd
  obtain ⟨c, hc, rfl⟩ := List.mem_map.mp hd
  exact decodeNibble_lt (h c (List.mem_reverse.mp hc))

theorem hexValue_cons (c : UInt8) (cs : List UInt8) :
    hexValue (c :: cs) = hexValue cs + 16 ^ cs.length * decodeNibble c := by
  have h := hexValue_append [c] cs
  rw [List.singleton_append] at h
  rw [h]
  rfl

/-! ## The loops -/

theorem wordStep_ok {n w : Nat} {c : UInt8} (h : IsHexDigit c) :
    wordStep n w c = .ok ((w * 16 + decodeNibble c) % 2 ^ (4 * n)) :=
  if_neg ((isHexDigit_iff c).mp h)

/-- A chunk of digits fills a word from `w`: the word is shifted by a digit per byte, modulo
the word size; by induction on the chunk with the word generalized. -/
theorem foldlM_wordStep (n : Nat) :
    ∀ (chunk : List UInt8) (w : Nat), w < 2 ^ (4 * n) → (∀ c ∈ chunk, IsHexDigit c) →
      chunk.foldlM (wordStep n) w = .ok ((w * 16 ^ chunk.length + hexValue chunk) % 2 ^ (4 * n))
  | [], w, hw, _ => by
    rw [List.foldlM_nil, List.length_nil, pow_zero, mul_one, hexValue_nil, add_zero,
      Nat.mod_eq_of_lt hw]
    rfl
  | c :: cs, w, _, h => by
    have hc := h c List.mem_cons_self
    have hw' : (w * 16 + decodeNibble c) % 2 ^ (4 * n) < 2 ^ (4 * n) := Nat.mod_lt _ (by positivity)
    rw [List.foldlM_cons, wordStep_ok hc]
    show (cs.foldlM (wordStep n) ((w * 16 + decodeNibble c) % 2 ^ (4 * n))) = _
    rw [foldlM_wordStep n cs _ hw' (fun c' hc' => h c' (List.mem_cons_of_mem c hc')),
      List.length_cons, hexValue_cons]
    -- the reduction modulo the word size commutes with the shifts that follow
    congr 1
    calc ((w * 16 + decodeNibble c) % 2 ^ (4 * n) * 16 ^ cs.length + hexValue cs) % 2 ^ (4 * n)
        = ((w * 16 + decodeNibble c) * 16 ^ cs.length + hexValue cs) % 2 ^ (4 * n) := by
          rw [Nat.add_mod, Nat.mul_mod, Nat.mod_mod, ← Nat.mul_mod, ← Nat.add_mod]
      _ = (w * 16 ^ (cs.length + 1) + (hexValue cs + 16 ^ cs.length * decodeNibble c)) % 2 ^ (4 * n) := by
          congr 1
          ring

/-- A chunk of at most `n` digits fills its word without wrapping. -/
theorem decodeWord_ok {n : Nat} {chunk : List UInt8} (hlen : chunk.length ≤ n)
    (h : ∀ c ∈ chunk, IsHexDigit c) : decodeWord n chunk = .ok (hexValue chunk) := by
  have hval : hexValue chunk < 2 ^ (4 * n) :=
    calc hexValue chunk < 16 ^ chunk.length := hexValue_lt h
      _ ≤ 16 ^ n := Nat.pow_le_pow_right (by norm_num) hlen
      _ = 2 ^ (4 * n) := by rw [pow_mul]; norm_num
  rw [decodeWord, foldlM_wordStep n chunk 0 (by positivity) h, zero_mul, zero_add, Nat.mod_eq_of_lt hval]

/-- A byte that is no digit fails the chunk, from any word. -/
theorem foldlM_wordStep_error (n : Nat) :
    ∀ (chunk : List UInt8) (w : Nat), (∃ c ∈ chunk, ¬ IsHexDigit c) →
      chunk.foldlM (wordStep n) w = .error .errSyntax
  | [], _, h => by
    obtain ⟨c, hc, _⟩ := h
    cases hc
  | c :: cs, w, h => by
    rw [List.foldlM_cons]
    by_cases hc : IsHexDigit c
    · -- the bad byte comes later
      rw [wordStep_ok hc]
      obtain ⟨c', hc', hbad⟩ := h
      have hin : c' ∈ cs := by
        rcases List.mem_cons.mp hc' with heq | hin
        · exact absurd (heq ▸ hc) hbad
        · exact hin
      exact foldlM_wordStep_error n cs _ ⟨c', hin, hbad⟩
    · have hstep : wordStep n w c = .error .errSyntax := if_pos (not_not.mp (mt (isHexDigit_iff c).mpr hc))
      rw [hstep]
      rfl

theorem decodeWord_error {n : Nat} {chunk : List UInt8} (h : ∃ c ∈ chunk, ¬ IsHexDigit c) :
    decodeWord n chunk = .error .errSyntax :=
  foldlM_wordStep_error n chunk 0 h

/-- The digits before `stop` are those before the chunk, then the chunk. -/
theorem take_eq_append_chunk (raw : List UInt8) (stop n : Nat) :
    raw.take stop = raw.take (stop - n) ++ (raw.take stop).drop (stop - n) := by
  conv_lhs => rw [← List.take_append_drop (stop - n) (raw.take stop)]
  rw [List.take_take, min_eq_left (Nat.sub_le stop n)]

/-- The words of the chunks from `stop` leftwards are the value of the digits before `stop`,
when the `k` words reach the start; by induction on `k`. A chunk shorter than `n` is the
first one, and nothing lies before it. -/
theorem decodeWords_ok {n : Nat} (raw : List UInt8) :
    ∀ (k stop : Nat), stop ≤ raw.length → stop ≤ k * n → (∀ c ∈ raw.take stop, IsHexDigit c) →
      ∃ ws, decodeWords n raw k stop = .ok ws ∧ setBits n ws = hexValue (raw.take stop)
  | 0, stop, _, hk, _ => by
    have hstop : stop = 0 := by omega
    subst hstop
    exact ⟨[], rfl, rfl⟩
  | k + 1, stop, hlen, hk, h => by
    have hsplit := take_eq_append_chunk raw stop n
    have hchunk : ∀ c ∈ (raw.take stop).drop (stop - n), IsHexDigit c :=
      fun c hc => h c (List.mem_of_mem_drop hc)
    have hbefore : ∀ c ∈ raw.take (stop - n), IsHexDigit c := fun c hc => by
      rw [hsplit] at h
      exact h c (List.mem_append_left _ hc)
    have hchunk_len : ((raw.take stop).drop (stop - n)).length = min stop n := by
      rw [List.length_drop, List.length_take, min_eq_left hlen]
      omega
    obtain ⟨ws, hws, hval⟩ :=
      decodeWords_ok (n := n) raw k (stop - n) (by omega) (by rw [Nat.succ_mul] at hk; omega) hbefore
    refine ⟨hexValue ((raw.take stop).drop (stop - n)) :: ws, ?_, ?_⟩
    · have hword := decodeWord_ok (by omega : ((raw.take stop).drop (stop - n)).length ≤ n) hchunk
      simp only [decodeWords, hword, hws]
      rfl
    · rw [setBits, hval]
      conv_rhs => rw [hsplit, hexValue_append, hchunk_len]
      by_cases hs : n ≤ stop
      · -- a full chunk: its `n` digits are one word
        rw [min_eq_right hs, pow_mul]
        norm_num
      · -- the first chunk: nothing before it
        have hz : stop - n = 0 := by omega
        rw [hz, List.take_zero, hexValue_nil, mul_zero, mul_zero]

/-- A byte that is no digit, anywhere the words reach, fails the loop. -/
theorem decodeWords_error {n : Nat} (raw : List UInt8) :
    ∀ (k stop : Nat), stop ≤ k * n → (∃ c ∈ raw.take stop, ¬ IsHexDigit c) →
      decodeWords n raw k stop = .error .errSyntax
  | 0, stop, hk, h => by
    have hstop : stop = 0 := by omega
    subst hstop
    obtain ⟨c, hc, _⟩ := h
    rw [List.take_zero] at hc
    cases hc
  | k + 1, stop, hk, h => by
    by_cases hc : ∃ c ∈ (raw.take stop).drop (stop - n), ¬ IsHexDigit c
    · simp only [decodeWords, decodeWord_error hc]
      rfl
    · -- the chunk is all digits, and the bad byte lies before it
      have hchunk : ∀ c ∈ (raw.take stop).drop (stop - n), IsHexDigit c := by
        intro c hcm
        by_contra hbad
        exact hc ⟨c, hcm, hbad⟩
      have hbefore : ∃ c ∈ raw.take (stop - n), ¬ IsHexDigit c := by
        obtain ⟨c, hcm, hbad⟩ := h
        rw [take_eq_append_chunk raw stop n, List.mem_append] at hcm
        rcases hcm with hin | hin
        · exact ⟨c, hin, hbad⟩
        · exact absurd (hchunk c hin) hbad
      have hrest := decodeWords_error (n := n) raw k (stop - n) (by rw [Nat.succ_mul] at hk; omega) hbefore
      simp only [decodeWords, decodeWord, foldlM_wordStep n _ 0 (by positivity) hchunk, hrest]
      rfl

/-! ## `checkNumber` and `DecodeBig` -/

/-- `checkNumber` accepts `0x` or `0X` and at least one digit with no leading zero, and returns
the digits. -/
theorem checkNumber_eq_ok_iff (s raw : List UInt8) :
    checkNumber s = .ok raw ↔
      ∃ p, s = 0x30 :: p :: raw ∧ (p = 0x78 ∨ p = 0x58) ∧ raw ≠ [] ∧
        (raw.length > 1 → raw.head? ≠ some 0x30) := by
  rcases s with _ | ⟨c0, _ | ⟨c1, rest⟩⟩
  · simp [checkNumber]
  · simp [checkNumber, has0xPrefix]
  · by_cases hpre : c0 = 0x30 ∧ (c1 = 0x78 ∨ c1 = 0x58)
    · have hp : has0xPrefix (c0 :: c1 :: rest) = true := by
        simp [has0xPrefix, hpre.1, hpre.2]
      simp only [checkNumber, hp, List.length_cons, Nat.add_eq_zero_iff, one_ne_zero, and_false,
        if_false, Bool.not_true, Bool.false_eq_true, List.drop_succ_cons, List.drop_zero]
      constructor
      · intro h
        split_ifs at h with h1 h2
        cases h
        exact ⟨c1, by rw [hpre.1], hpre.2, List.ne_nil_of_length_pos (by omega), fun h3 h4 => h2 ⟨h3, h4⟩⟩
      · rintro ⟨p, hs, -, hne, hlz⟩
        simp only [List.cons.injEq] at hs
        obtain ⟨-, -, rfl⟩ := hs
        rw [if_neg (fun h => hne (List.eq_nil_of_length_eq_zero h)), if_neg (fun h => hlz h.1 h.2)]
    · have hp : has0xPrefix (c0 :: c1 :: rest) = false := by
        by_contra h
        apply hpre
        simp only [has0xPrefix, Bool.not_eq_false, Bool.and_eq_true, beq_iff_eq, Bool.or_eq_true] at h
        exact h
      simp only [checkNumber, hp, List.length_cons, Nat.add_eq_zero_iff, one_ne_zero, and_false,
        if_false, Bool.not_false, if_true, reduceCtorEq, false_iff, not_exists, not_and]
      intro p hs hp'
      obtain ⟨h0, h1, -⟩ : c0 = 0x30 ∧ c1 = p ∧ rest = raw := by simpa using hs
      exact absurd ⟨h0, h1 ▸ hp'⟩ hpre

theorem length_le_words (L n : Nat) (hn : 0 < n) : L ≤ (L / n + 1) * n :=
  calc L = n * (L / n) + L % n := (Nat.div_add_mod L n).symm
    _ ≤ n * (L / n) + n := Nat.add_le_add_left (Nat.mod_lt L hn).le _
    _ = (L / n + 1) * n := by ring

/-- **What `DecodeBig` accepts.** With words of `n > 0` digits, `DecodeBig` succeeds exactly on
`0x` or `0X` followed by the digits of a quantity, and returns their base-16 value. -/
theorem decodeBigWith_eq_ok_iff {n : Nat} (hn : 0 < n) (s : List UInt8) (v : Nat) :
    decodeBigWith n s = .ok v ↔
      ∃ p ds, s = 0x30 :: p :: ds ∧ (p = 0x78 ∨ p = 0x58) ∧ QuantityDigits ds ∧ v = hexValue ds := by
  constructor
  · intro h
    obtain ⟨raw, hraw, h⟩ := Except.bind_eq_ok.mp h
    obtain ⟨p, hs, hp, hne, hlz⟩ := (checkNumber_eq_ok_iff s raw).mp hraw
    by_cases hlong : raw.length > 64
    · -- more than 64 digits
      rw [if_pos hlong] at h
      cases h
    · rw [if_neg hlong] at h
      have hcover := length_le_words raw.length n hn
      by_cases hd : ∀ c ∈ raw, IsHexDigit c
      · obtain ⟨ws, hws, hval⟩ :=
          decodeWords_ok (n := n) raw _ raw.length le_rfl hcover (by rwa [List.take_length])
        rw [hws] at h
        injection h with hv
        refine ⟨p, raw, hs, hp, ⟨hne, by omega, hd, hlz⟩, ?_⟩
        rw [← hv, hval, List.take_length]
      · -- a byte that is no digit fails the loop
        have hbad : ∃ c ∈ raw.take raw.length, ¬ IsHexDigit c := by
          rw [List.take_length]
          by_contra hall
          exact hd fun c hc => by_contra fun hbad => hall ⟨c, hc, hbad⟩
        rw [decodeWords_error (n := n) raw _ raw.length hcover hbad] at h
        cases h
  · rintro ⟨p, ds, rfl, hp, hq, rfl⟩
    have hraw : checkNumber (0x30 :: p :: ds) = .ok ds :=
      (checkNumber_eq_ok_iff _ _).mpr ⟨p, rfl, hp, hq.ne_nil, hq.noLeadingZero⟩
    obtain ⟨ws, hws, hval⟩ := decodeWords_ok (n := n) ds _ ds.length le_rfl
      (length_le_words ds.length n hn) (by rw [List.take_length]; exact hq.digits)
    rw [List.take_length] at hval
    rw [decodeBigWith, hraw]
    show (if ds.length > 64 then _ else _) = _
    rw [if_neg (by have := hq.length_le; omega), hws, ← hval]
    rfl

example : decodeBig [0x30, 0x58, 0x31, 0x46] = .ok 31 := by decide
example : decodeBig [0x30, 0x78, 0x30, 0x31] = .error .leadingZero := by decide

/-! ## `EncodeBig` -/

theorem decodeNibble_ne_zero {c : UInt8} (h : IsHexDigit c) (hc : c ≠ 0x30) : decodeNibble c ≠ 0 := by
  revert c
  decide +kernel

theorem isHexDigit_of_mem_formatHex {x : Nat} {c : UInt8} (hc : c ∈ formatHex x) : IsHexDigit c := by
  obtain ⟨d, hd, rfl⟩ := List.mem_map.mp hc
  exact (decodeNibble_hexDigit (Nat.digits_lt_base (by norm_num) (List.mem_reverse.mp hd))).1

theorem hexValue_formatHex (x : Nat) : hexValue (formatHex x) = x := by
  have hdig : ∀ d ∈ Nat.digits 16 x, decodeNibble (hexDigit d) = d :=
    fun d hd => (decodeNibble_hexDigit (Nat.digits_lt_base (by norm_num) hd)).2
  have hmap : ((Nat.digits 16 x).reverse.map hexDigit).reverse.map decodeNibble = Nat.digits 16 x := by
    simp only [List.map_reverse, List.reverse_reverse, List.map_map]
    exact (List.map_congr_left (g := id) hdig).trans (List.map_id _)
  rw [hexValue, formatHex, hmap, Nat.ofDigits_digits]

/-- The digits `%x` writes for a positive number below `2 ^ 256` are those of a quantity: the
most significant is not zero, and there are at most 64. -/
theorem quantityDigits_formatHex {x : Nat} (hx : x ≠ 0) (hlt : x < 2 ^ 256) :
    QuantityDigits (formatHex x) where
  ne_nil := by
    rw [formatHex, ne_eq, List.map_eq_nil_iff, List.reverse_eq_nil_iff]
    exact Nat.digits_ne_nil_iff_ne_zero.mpr hx
  length_le := by
    rw [formatHex, List.length_map, List.length_reverse, Nat.digits_length_le_iff (by norm_num)]
    calc x < 2 ^ 256 := hlt
      _ = 16 ^ 64 := by norm_num
  digits := fun _ hc => isHexDigit_of_mem_formatHex hc
  noLeadingZero := by
    intro _ hhead
    have hne := (Nat.digits_ne_nil_iff_ne_zero (b := 16)).mpr hx
    have hlast := Nat.getLast_digit_ne_zero 16 hx
    rw [formatHex, List.head?_map, List.head?_reverse, List.getLast?_eq_some_getLast hne, Option.map_some,
      Option.some.injEq] at hhead
    -- the digit written first reads back as the last digit of `x`, which is not zero
    have hval := (decodeNibble_hexDigit (Nat.digits_lt_base (by norm_num) (List.getLast_mem hne))).2
    rw [hhead] at hval
    exact hlast (hval.symm.trans rfl)

/-- `EncodeBig` of a number below `2 ^ 256` is `0x` and the digits of a quantity of that value. -/
theorem encodeBig_quantity {x : Nat} (hlt : x < 2 ^ 256) :
    ∃ ds, encodeBig x = 0x30 :: 0x78 :: ds ∧ QuantityDigits ds ∧ x = hexValue ds := by
  by_cases hx : x = 0
  · subst hx
    refine ⟨[0x30], rfl, ⟨by simp, by simp, ?_, by simp⟩, rfl⟩
    intro c hc
    rw [List.mem_singleton.mp hc]
    decide
  · refine ⟨formatHex x, ?_, quantityDigits_formatHex hx hlt, (hexValue_formatHex x).symm⟩
    rw [encodeBig, if_neg (fun h => hx (Nat.size_eq_zero.mp h))]
    rfl

/-- The only quantity of value zero is the digit `0`. -/
theorem eq_zero_digit_of_hexValue {ds : List UInt8} (hq : QuantityDigits ds) (h0 : hexValue ds = 0) :
    ds = [0x30] := by
  obtain ⟨d, cs, rfl⟩ := List.exists_cons_of_ne_nil hq.ne_nil
  have hd := hq.digits d List.mem_cons_self
  rw [hexValue_cons] at h0
  have hnib : decodeNibble d = 0 :=
    (Nat.mul_eq_zero.mp (Nat.eq_zero_of_add_eq_zero h0).2).resolve_left (by positivity)
  have hd0 : d = 0x30 := by
    by_contra hne
    exact decodeNibble_ne_zero hd hne hnib
  subst hd0
  cases cs with
  | nil => rfl
  | cons c cs' => exact absurd rfl (hq.noLeadingZero (by simp))

/-- `EncodeBig` writes a decoded quantity back with its digits in lower case. -/
theorem encodeBig_hexValue {ds : List UInt8} (hq : QuantityDigits ds) :
    encodeBig (hexValue ds) = 0x30 :: 0x78 :: ds.map asciiLower := by
  by_cases h0 : hexValue ds = 0
  · rw [h0, eq_zero_digit_of_hexValue hq h0]
    rfl
  · obtain ⟨d, cs, rfl⟩ := List.exists_cons_of_ne_nil hq.ne_nil
    have hd := hq.digits d List.mem_cons_self
    -- the leading digit is not zero: it is the only one, or it is not `0`
    have hlead : decodeNibble d ≠ 0 := by
      cases cs with
      | nil =>
        rwa [hexValue_cons, List.length_nil, pow_zero, one_mul, hexValue_nil, zero_add] at h0
      | cons c cs' =>
        exact decodeNibble_ne_zero hd fun heq => hq.noLeadingZero (by simp) (by rw [heq]; rfl)
    have hdigits : Nat.digits 16 (hexValue (d :: cs)) = (d :: cs).reverse.map decodeNibble := by
      apply Nat.digits_ofDigits 16 (by norm_num)
      · intro l hl
        obtain ⟨c, hc, rfl⟩ := List.mem_map.mp hl
        exact decodeNibble_lt (hq.digits c (List.mem_reverse.mp hc))
      · intro hne
        rw [List.getLast_map, List.getLast_reverse]
        exact hlead
    have hlower : (d :: cs).map (hexDigit ∘ decodeNibble) = (d :: cs).map asciiLower :=
      List.map_congr_left fun c hc => hexDigit_decodeNibble (hq.digits c hc)
    rw [encodeBig, if_neg (fun h => h0 (Nat.size_eq_zero.mp h)), formatHex, hdigits]
    simp only [List.map_reverse, List.reverse_reverse, List.map_map, hlower]
    rfl

/-- **Hex quantities round-trip.** For words of any `n > 0` digits (16 on a 64-bit platform, 8
on a 32-bit one): `DecodeBig` succeeds exactly on `0x` or `0X` followed by one to 64 hex
digits without a leading zero, and returns their base-16 value; it reads back every number
below `2 ^ 256` that `EncodeBig` wrote; and `EncodeBig` writes back what it decoded with the
prefix and the digits in lower case. -/
theorem decodeBig_exact {n : Nat} (hn : 0 < n) :
    (∀ s v, decodeBigWith n s = .ok v ↔
      ∃ p ds, s = 0x30 :: p :: ds ∧ (p = 0x78 ∨ p = 0x58) ∧ QuantityDigits ds ∧ v = hexValue ds) ∧
    (∀ x, x < 2 ^ 256 → decodeBigWith n (encodeBig x) = .ok x) ∧
    (∀ s v, decodeBigWith n s = .ok v → encodeBig v = s.map asciiLower) := by
  refine ⟨decodeBigWith_eq_ok_iff hn, ?_, ?_⟩
  · intro x hx
    obtain ⟨ds, henc, hq, hval⟩ := encodeBig_quantity hx
    exact (decodeBigWith_eq_ok_iff hn _ x).mpr ⟨0x78, ds, henc, .inl rfl, hq, hval⟩
  · intro s v h
    obtain ⟨p, ds, rfl, hp, hq, rfl⟩ := (decodeBigWith_eq_ok_iff hn s v).mp h
    rw [encodeBig_hexValue hq]
    -- the prefix lower-cases to `0x`
    have hpl : asciiLower p = 0x78 := by
      rcases hp with rfl | rfl <;> rfl
    rw [List.map_cons, List.map_cons, hpl]
    rfl

theorem decodeBig_exact_sixteen :
    (∀ s v, decodeBigWith 16 s = .ok v ↔
      ∃ p ds, s = 0x30 :: p :: ds ∧ (p = 0x78 ∨ p = 0x58) ∧ QuantityDigits ds ∧ v = hexValue ds) ∧
    (∀ x, x < 2 ^ 256 → decodeBigWith 16 (encodeBig x) = .ok x) ∧
    (∀ s v, decodeBigWith 16 s = .ok v → encodeBig v = s.map asciiLower) :=
  decodeBig_exact (by decide)

end GoMetadium.Hexutil
