import Mathlib

set_option autoImplicit false

/-! # Key encodings of the trie (`trie/encoding.go`)

Trie keys come in three encodings, all `[]byte`:

* KEYBYTES: the key itself, the input of `TryGet`, `TryUpdate`, `TryDelete`;
* HEX: one byte per nibble, followed by the terminator 16 when the key leads to a value;
  nodes in memory use it;
* COMPACT (the Yellow Paper's hex-prefix encoding): a flag nibble (bit 1: terminator,
  bit 0: odd length), a zero nibble when the length is even, then the nibbles packed two
  per byte; nodes in the database use it.

The lemmas here are about HEX keys (`IsKey`: nibbles, then the terminator), which the trie's
proofs split at common prefixes (`prefixLen_decomp`) and after nibbles (`isKey_append_cons`),
and about the HEX form of a key, a HEX key that no other key shares
(`keybytesToHex_injective`).
-/

namespace GoMetadium.Trie

/-- `keybytesToHex`: the two nibbles of each byte, high first, then the terminator. -/
def keybytesToHex (str : List UInt8) : List UInt8 :=
  (str.flatMap fun b => [b / 16, b % 16]) ++ [16]

/-- `hasTerm`: whether a HEX key ends with the terminator. -/
def hasTerm (s : List UInt8) : Bool := s.getLast? == some 16

/-- `decodeNibbles`: `bytes[bi] = nibbles[ni]<<4 | nibbles[ni+1]` for each pair. The callers
pass an even number of nibbles; on an odd one Go indexes past the end and panics, and the
last nibble is dropped here. -/
def decodeNibbles : List UInt8 → List UInt8
  | n₀ :: n₁ :: ns => ((n₀ <<< 4) ||| n₁) :: decodeNibbles ns
  | _ => []

/-- The terminator bit of the flag byte. -/
def termBit (term : Bool) : UInt8 := if term then 1 else 0

/-- `hexToCompact`. -/
def hexToCompact (hex : List UInt8) : List UInt8 :=
  let terminator : UInt8 := termBit (hasTerm hex)
  let hex := if hasTerm hex then hex.dropLast else hex
  -- the flag byte
  let flag : UInt8 := terminator <<< 5
  if hex.length % 2 = 1 then
    -- odd flag, and the first nibble is contained in the first byte
    (flag ||| ((1 : UInt8) <<< 4) ||| hex.headD 0) :: decodeNibbles hex.tail
  else flag :: decodeNibbles hex

/-- `compactToHex`. -/
def compactToHex (compact : List UInt8) : List UInt8 :=
  if compact = [] then compact
  else
    let base := keybytesToHex compact
    -- delete terminator flag
    let base := if base.headD 0 < 2 then base.dropLast else base
    -- apply odd flag
    let chop : UInt8 := 2 - (base.headD 0 &&& 1)
    base.drop chop.toNat

/-- `hexToKeybytes`; `none` where Go panics on a key of odd length. -/
def hexToKeybytes (hex : List UInt8) : Option (List UInt8) :=
  let hex := if hasTerm hex then hex.dropLast else hex
  if hex.length % 2 ≠ 0 then none else some (decodeNibbles hex)

/-- `prefixLen`: the length of the common prefix. -/
def prefixLen : List UInt8 → List UInt8 → Nat
  | a :: as, b :: bs => if a = b then prefixLen as bs + 1 else 0
  | _, _ => 0

/-- A HEX key without terminator: every byte is a nibble. -/
def IsNibbles (key : List UInt8) : Prop := ∀ n ∈ key, n < 16

instance (key : List UInt8) : Decidable (IsNibbles key) :=
  inferInstanceAs (Decidable (∀ n ∈ key, n < 16))

/-! ## Nibbles -/

theorem isNibbles_append {s t : List UInt8} : IsNibbles (s ++ t) ↔ IsNibbles s ∧ IsNibbles t := by
  simp only [IsNibbles, List.mem_append]
  exact ⟨fun h => ⟨fun n hn => h n (Or.inl hn), fun n hn => h n (Or.inr hn)⟩,
    fun h n hn => hn.elim (h.1 n) (h.2 n)⟩

theorem isNibbles_cons {n : UInt8} {s : List UInt8} : IsNibbles (n :: s) ↔ n < 16 ∧ IsNibbles s := by
  simp [IsNibbles]

/-! ## Common prefixes and HEX keys -/

/-- `prefixLen` splits two keys into their common prefix and two rests that do not start with
the same byte. -/
theorem prefixLen_decomp (a b : List UInt8) :
    ∃ c a' b', a = c ++ a' ∧ b = c ++ b' ∧ prefixLen a b = c.length ∧
      ∀ x y, a'.head? = some x → b'.head? = some y → x ≠ y := by
  induction a generalizing b with
  | nil => exact ⟨[], [], b, rfl, rfl, by cases b <;> rfl, by simp⟩
  | cons x as ih =>
    cases b with
    | nil => exact ⟨[], x :: as, [], rfl, rfl, rfl, by simp⟩
    | cons y bs =>
      by_cases hxy : x = y
      · -- equal heads: one more byte of common prefix
        subst hxy
        obtain ⟨c, a', b', ha, hb, hlen, hne⟩ := ih bs
        refine ⟨x :: c, a', b', by rw [ha]; rfl, by rw [hb]; rfl, ?_, hne⟩
        simp [prefixLen, hlen]
      · exact ⟨[], x :: as, y :: bs, rfl, rfl, by simp [prefixLen, hxy], by simpa using hxy⟩

/-- A HEX key that leads to a value: nibbles, then the terminator. -/
def IsKey (k : List UInt8) : Prop := ∃ ns, IsNibbles ns ∧ k = ns ++ [16]

theorem IsKey.ne_nil {k : List UInt8} (h : IsKey k) : k ≠ [] := by
  obtain ⟨ns, -, rfl⟩ := h
  simp

theorem not_isNibbles_of_isKey {k : List UInt8} (h : IsKey k) : ¬ IsNibbles k := by
  obtain ⟨ns, -, rfl⟩ := h
  intro hk
  have := hk 16 (by simp)
  exact absurd this (by decide)

theorem isNibbles_nil : IsNibbles [] := fun _ h => by cases h

theorem isKey_term : IsKey [16] := ⟨[], isNibbles_nil, rfl⟩

/-- Where a HEX key splits after a prefix `c` and a byte `y`: either `y` is its terminator
and nothing follows, or `y` is a nibble and a HEX key follows. -/
theorem isKey_append_cons {c r : List UInt8} {y : UInt8} :
    IsKey (c ++ y :: r) ↔ IsNibbles c ∧ ((y = 16 ∧ r = []) ∨ (y < 16 ∧ IsKey r)) := by
  constructor
  · rintro ⟨ns, hns, heq⟩
    -- compare the two ways of writing the key from its end
    rcases List.eq_nil_or_concat r with rfl | ⟨r', z, rfl⟩
    · obtain ⟨rfl, hy⟩ := List.append_inj' (show c ++ [y] = ns ++ [16] from heq) rfl
      simp only [List.singleton_inj] at hy
      exact ⟨hns, Or.inl ⟨hy, rfl⟩⟩
    · have h : (c ++ y :: r') ++ [z] = ns ++ [16] := by
        rw [← heq, List.concat_eq_append]
        simp
      obtain ⟨hc, hz⟩ := List.append_inj' h rfl
      simp only [List.singleton_inj] at hz
      subst hz
      rw [← hc, isNibbles_append, isNibbles_cons] at hns
      exact ⟨hns.1, Or.inr ⟨hns.2.1, r', hns.2.2, List.concat_eq_append⟩⟩
  · rintro ⟨hc, ⟨rfl, rfl⟩ | ⟨hy, ns, hns, rfl⟩⟩
    · exact ⟨c, hc, rfl⟩
    · refine ⟨c ++ y :: ns, ?_, by simp⟩
      rw [isNibbles_append, isNibbles_cons]
      exact ⟨hc, hy, hns⟩

/-- The first byte of a HEX key: the terminator alone, or a nibble before a HEX key. -/
theorem isKey_cons {y : UInt8} {r : List UInt8} :
    IsKey (y :: r) ↔ (y = 16 ∧ r = []) ∨ (y < 16 ∧ IsKey r) := by
  have h := isKey_append_cons (c := []) (y := y) (r := r)
  simpa [isNibbles_nil] using h

/-- A HEX key that ends a prefix of another ends it: no HEX key continues past its
terminator. -/
theorem IsKey.eq_of_append {k r : List UInt8} (hk : IsKey k) (hkr : IsKey (k ++ r)) : r = [] := by
  obtain ⟨ns, -, rfl⟩ := hk
  cases r with
  | nil => rfl
  | cons y r =>
    rw [List.append_assoc, List.singleton_append, isKey_append_cons] at hkr
    rcases hkr.2 with ⟨-, h⟩ | ⟨h, -⟩
    · cases h
    · exact absurd h (by decide)

/-- Nibbles followed by a HEX key are a HEX key. -/
theorem isKey_append {c r : List UInt8} (hc : IsNibbles c) (hr : IsKey r) : IsKey (c ++ r) := by
  obtain ⟨ns, hns, rfl⟩ := hr
  exact ⟨c ++ ns, isNibbles_append.mpr ⟨hc, hns⟩, by simp⟩

/-- A HEX key split after nibbles: the rest is a HEX key. -/
theorem isKey_of_append {c r : List UInt8} (h : IsKey (c ++ r)) (hr : r ≠ []) :
    IsNibbles c ∧ IsKey r := by
  obtain ⟨y, r', rfl⟩ := List.exists_cons_of_ne_nil hr
  obtain ⟨hc, ⟨rfl, rfl⟩ | ⟨hy, hr'⟩⟩ := isKey_append_cons.mp h
  · exact ⟨hc, isKey_term⟩
  · refine ⟨hc, ?_⟩
    have : IsKey ([] ++ y :: r') := isKey_append_cons.mpr ⟨isNibbles_nil, Or.inr ⟨hy, hr'⟩⟩
    simpa using this

/-! ## KEYBYTES to HEX -/

/-- Both nibbles of a byte are nibbles. -/
theorem isNibbles_pair (b : UInt8) : IsNibbles [b / 16, b % 16] := by
  have hb := b.toNat_lt
  intro n hn
  simp only [List.mem_cons, List.not_mem_nil, or_false] at hn
  rw [UInt8.lt_iff_toNat_lt]
  rcases hn with rfl | rfl
  · rw [UInt8.toNat_div]
    change b.toNat / 16 < 16
    omega
  · rw [UInt8.toNat_mod]
    change b.toNat % 16 < 16
    omega

/-- The HEX form of a key leads to a value. -/
theorem isKey_keybytesToHex (k : List UInt8) : IsKey (keybytesToHex k) := by
  refine ⟨_, ?_, rfl⟩
  intro n hn
  obtain ⟨b, -, hb⟩ := List.mem_flatMap.mp hn
  exact isNibbles_pair b n hb

/-- A byte is given back by its two nibbles. -/
theorem eq_of_nibbles_eq {a b : UInt8} (hhi : a / 16 = b / 16) (hlo : a % 16 = b % 16) : a = b := by
  have hhi' := congrArg UInt8.toNat hhi
  have hlo' := congrArg UInt8.toNat hlo
  rw [UInt8.toNat_div, UInt8.toNat_div] at hhi'
  rw [UInt8.toNat_mod, UInt8.toNat_mod] at hlo'
  apply UInt8.toNat_inj.mp
  change a.toNat / 16 = b.toNat / 16 at hhi'
  change a.toNat % 16 = b.toNat % 16 at hlo'
  omega

/-- Distinct keys have distinct HEX forms. -/
theorem keybytesToHex_injective : Function.Injective keybytesToHex := by
  intro a b h
  have hbody := List.append_inj_left' h rfl
  clear h
  -- one byte of each key at a time: two nibbles each
  induction a generalizing b with
  | nil =>
    cases b with
    | nil => rfl
    | cons y ys => simp at hbody
  | cons x xs ih =>
    cases b with
    | nil => simp at hbody
    | cons y ys =>
      simp only [List.flatMap_cons, List.cons_append, List.nil_append, List.cons.injEq] at hbody
      obtain ⟨hhi, hlo, hrest⟩ := hbody
      rw [eq_of_nibbles_eq hhi hlo, ih hrest]

end GoMetadium.Trie
