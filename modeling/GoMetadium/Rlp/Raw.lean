import GoMetadium.Lib.Except
import GoMetadium.Rlp.Encbuf

set_option autoImplicit false

/-! # Splitting values off a byte slice (`rlp/raw.go`)

`Split` reads the header of the value at the front of a slice with its own `readKind` and
`readSize`, apart from the `Stream` decoder, and `CountValues` splits values off a slice until
it is empty. This module says which slices they accept: those that begin with a value behind
the header the encoder's `puthead` writes for its kind and size, where a one-byte string below
`0x80` is that byte alone, and no others.

* `split_eq_ok_iff`: `Split(b)` returns `(k, content, rest)` exactly when `content` is what the
  encoder writes as a value of kind `k` and `b` is its canonical header, `content` and `rest`.
* `countValues_eq_ok_iff`: `CountValues(b)` returns `n` exactly when `b` is `n` such values one
  after another.

The inversion goes through `ReadsAs`, what a header that `readKind` accepted says about the
slice, proved once for each of the five branches of `readKind`.
-/

open Rlp

namespace GoMetadium.Rlp

/-! ## Canonically headed values -/

/-- The header the encoder writes before the content of a value of kind `k` and `size` bytes:
none for a byte, `puthead` with the string or the list tags otherwise. -/
def canonHead : Kind → Nat → List UInt8
  | .byte, _ => []
  | .string, size => puthead 0x80 0xB7 size
  | .list, size => puthead 0xC0 0xF7 size

/-- Content the encoder writes as a value of kind `k`: a byte is one byte below `0x80`, a
string is any other string, and strings and lists hold fewer than `2 ^ 64` bytes, the most a
header announces. -/
def CanonContent : Kind → List UInt8 → Prop
  | .byte, c => c.length = 1 ∧ c.headD 0 ≤ 0x7F
  | .string, c => ¬ (c.length = 1 ∧ c.headD 0 ≤ 0x7F) ∧ c.length < 2 ^ 64
  | .list, c => c.length < 2 ^ 64

instance (k : Kind) (c : List UInt8) : Decidable (CanonContent k c) := by
  cases k <;> unfold CanonContent <;> infer_instance

/-- The value of kind `k` with content `c`, behind its canonical header. -/
def headed (k : Kind) (c : List UInt8) : List UInt8 := canonHead k c.length ++ c

/-- Values one after another, each behind its canonical header. -/
def headedAll (vs : List (Kind × List UInt8)) : List UInt8 :=
  (vs.map fun v => headed v.1 v.2).flatten

@[simp] theorem headedAll_nil : headedAll [] = [] := rfl

@[simp] theorem headedAll_cons (k : Kind) (c : List UInt8) (vs : List (Kind × List UInt8)) :
    headedAll ((k, c) :: vs) = headed k c ++ headedAll vs := rfl

/-- A value takes at least one byte: the byte itself, or a header. -/
theorem headed_ne_nil {k : Kind} {c : List UInt8} (h : CanonContent k c) : headed k c ≠ [] := by
  cases k with
  | byte =>
    have hc : c ≠ [] := List.ne_nil_of_length_pos (by rw [h.1]; omega)
    simpa [headed, canonHead] using hc
  | string => simp [headed, canonHead, puthead]; split <;> simp
  | list => simp [headed, canonHead, puthead]; split <;> simp

theorem eq_nil_of_headedAll {vs : List (Kind × List UInt8)} (hc : ∀ v ∈ vs, CanonContent v.1 v.2)
    (h : headedAll vs = []) : vs = [] := by
  cases vs with
  | nil => rfl
  | cons v vs =>
    rw [show v = (v.1, v.2) from rfl, headedAll_cons] at h
    exact absurd (List.append_eq_nil_iff.mp h).1 (headed_ne_nil (hc v (List.mem_cons_self ..)))

/-! ## Reading a header back -/

/-- `buf` begins with a value of kind `k` whose header takes `ts` bytes and whose content
takes `cs`, written as the encoder writes it. -/
structure ReadsAs (buf : List UInt8) (k : Kind) (ts cs : Nat) : Prop where
  fits : ts + cs ≤ buf.length
  head : buf.take ts = canonHead k cs
  content : CanonContent k ((buf.drop ts).take cs)

/-- A size `readSize` accepted is at least 56 and its bytes are the size's own. -/
theorem readSize_inv {b : List UInt8} {slen s : Nat} (h : readSize b slen = .ok s) :
    slen ≤ b.length ∧ 56 ≤ s ∧ b.take slen = putint s := by
  unfold readSize at h
  split_ifs at h with hlen hcanon
  obtain rfl : bigEndian (b.take slen) = s := Except.ok.inj h
  push Not at hcanon
  obtain ⟨h56, hz⟩ := hcanon
  -- the size bytes start with a byte that is not zero, so `putint` gives them back
  obtain ⟨x, xs, hxs⟩ : ∃ x xs, b.take slen = x :: xs := by
    cases hb : b.take slen with
    | nil => simp [hb, bigEndian] at h56
    | cons x xs => exact ⟨x, xs, rfl⟩
  have hx : x ≠ 0 := by
    cases b with
    | nil => simp at hxs
    | cons y ys =>
      cases slen with
      | zero => simp at hxs
      | succ k =>
        simp only [List.take_succ_cons, List.cons.injEq] at hxs
        rw [← hxs.1]
        simpa using hz
  refine ⟨by omega, h56, ?_⟩
  rw [hxs, putint_bigEndian_cons hx]

/-- The branch of a one-byte string whose byte should have stood alone. -/
theorem readHead_oneByte_error {b : UInt8} (h : b.toNat = 129) {rest : List UInt8}
    (hr : rest.length > 0) (hx : (rest.headD 0).toNat < 128) :
    readHead b rest = .error .canonSize := by
  simp only [readHead, UInt8.lt_iff_toNat_lt, UInt8.toNat_sub, UInt8.reduceToNat, Nat.reducePow]
  rw [if_neg (by omega), if_pos (by omega), show (256 - 128 + b.toNat) % 256 = 1 by omega,
    if_pos ⟨rfl, hr, hx⟩]

section Branches

variable {x : UInt8} {rest : List UInt8}

/-- The branch of a byte below `0x80`. -/
theorem readsAs_byte (h : x.toNat < 128) : ReadsAs (x :: rest) .byte 0 1 where
  fits := by simp
  head := rfl
  content := by
    simp only [CanonContent, List.drop_zero, List.take_succ_cons, List.take_zero, List.length_singleton,
      List.headD_cons, UInt8.le_iff_toNat_le, UInt8.reduceToNat, true_and]
    omega

/-- The branches of a short string and a short list: the header is the tag plus the size. -/
theorem readsAs_short {k : Kind} (small large : UInt8) {n : Nat}
    (hhead : ∀ m, canonHead k m = puthead small large m) (hx : x.toNat = small.toNat + n)
    (hn : n < 56) (hfit : n ≤ rest.length) (hc : CanonContent k (rest.take n)) :
    ReadsAs (x :: rest) k 1 n where
  fits := by simp; omega
  head := by rw [hhead, puthead, if_pos hn, ← eq_tag hx]; rfl
  content := by simpa using hc

/-- The branches of a long string and a long list: the tag plus the length of the size, then
the size. -/
theorem readsAs_long {k : Kind} (small large : UInt8) {slen s : Nat}
    (hhead : ∀ m, canonHead k m = puthead small large m) (hx : x.toNat = large.toNat + slen)
    (h8 : slen ≤ 8) (hs : readSize rest slen = .ok s) (hfit : s ≤ rest.length - slen)
    (hc : ∀ c : List UInt8, c.length = s → s < 2 ^ 64 → CanonContent k c) :
    ReadsAs (x :: rest) k (slen + 1) s := by
  obtain ⟨hlen, h56, htake⟩ := readSize_inv hs
  have hL : (putint s).length = slen := by rw [← htake, List.length_take]; omega
  refine ⟨by simp; omega, ?_, hc _ (by simp; omega) (lt_of_length_putint_le (by omega))⟩
  rw [List.take_succ_cons, htake, hhead, puthead, if_neg (by omega), hL, ← eq_tag hx]

end Branches

/-- What a header `readHead` read, and that fits, says about the slice. -/
theorem readHead_inv {x : UInt8} {rest : List UInt8} {k : Kind} {ts cs : Nat}
    (h : readHead x rest = .ok (k, ts, cs)) (hfit : cs ≤ rest.length + 1 - ts) :
    ReadsAs (x :: rest) k ts cs := by
  have hx := x.toNat_lt
  by_cases h80 : x.toNat < 0x80
  · -- a byte below 0x80 is its own value
    rw [readHead_byte h80] at h
    simp only [Except.ok.injEq, Prod.mk.injEq] at h
    obtain ⟨rfl, rfl, rfl⟩ := h
    exact readsAs_byte h80
  by_cases hB8 : x.toNat < 0xB8
  · -- a short string, of a byte not below 0x80 when it has one byte
    by_cases hcanon : x.toNat = 129 ∧ rest.length > 0 ∧ (rest.headD 0).toNat < 128
    · rw [readHead_oneByte_error hcanon.1 hcanon.2.1 hcanon.2.2] at h
      cases h
    rw [readHead_shortString (by omega) hB8 hcanon] at h
    simp only [Except.ok.injEq, Prod.mk.injEq] at h
    obtain ⟨rfl, rfl, rfl⟩ := h
    have hn : x.toNat - 128 ≤ rest.length := by omega
    refine readsAs_short 0x80 0xB7 (fun _ => rfl) (by simp; omega)
      (by omega) hn ⟨fun ⟨hone, hle⟩ => hcanon ⟨?_, ?_⟩, by simp; omega⟩
    · simp at hone
      omega
    · obtain ⟨y, ys, rfl⟩ := List.exists_cons_of_ne_nil
        (List.ne_nil_of_length_pos (show 0 < rest.length by simp at hone; omega))
      simp only [List.length_take, List.length_cons] at hone hn
      refine ⟨by simp, ?_⟩
      rw [show x.toNat - 128 = 1 by omega] at hle
      simp only [List.take_succ_cons, List.take_zero, List.headD_cons, UInt8.le_iff_toNat_le,
        UInt8.reduceToNat] at hle ⊢
      omega
  by_cases hC0 : x.toNat < 0xC0
  · -- a long string: at least 56 bytes, so never a single byte
    rw [readHead_longString (by omega) hC0] at h
    cases hs : readSize rest (x.toNat - 183) with
    | error e => rw [hs] at h; cases h
    | ok s =>
      rw [hs] at h
      simp only [Except.map, Except.ok.injEq, Prod.mk.injEq] at h
      obtain ⟨rfl, rfl, rfl⟩ := h
      have h56 := (readSize_inv hs).2.1
      rw [show x.toNat - 182 = x.toNat - 183 + 1 by omega]
      exact readsAs_long 0x80 0xB7 (fun _ => rfl) (by simp; omega) (by omega)
        hs (by omega) fun c hc hs64 => ⟨fun h1 => by omega, by omega⟩
  by_cases hF8 : x.toNat < 0xF8
  · -- a short list
    rw [readHead_shortList (by omega) hF8] at h
    simp only [Except.ok.injEq, Prod.mk.injEq] at h
    obtain ⟨rfl, rfl, rfl⟩ := h
    exact readsAs_short 0xC0 0xF7 (fun _ => rfl) (by simp; omega)
      (by omega) (by omega) (show _ < 2 ^ 64 by simp; omega)
  · -- a long list
    rw [readHead_longList (by omega)] at h
    cases hs : readSize rest (x.toNat - 247) with
    | error e => rw [hs] at h; cases h
    | ok s =>
      rw [hs] at h
      simp only [Except.map, Except.ok.injEq, Prod.mk.injEq] at h
      obtain ⟨rfl, rfl, rfl⟩ := h
      rw [show x.toNat - 246 = x.toNat - 247 + 1 by omega]
      exact readsAs_long 0xC0 0xF7 (fun _ => rfl) (by simp; omega) (by omega)
        hs (by omega) fun c hc hs64 => show c.length < 2 ^ 64 by omega

/-- What `readKind` accepted is a value as the encoder writes it, within the slice. -/
theorem readKind_inv {buf : List UInt8} {k : Kind} {ts cs : Nat}
    (h : readKind buf = .ok (k, ts, cs)) : ReadsAs buf k ts cs := by
  cases buf with
  | nil => cases h
  | cons x rest =>
    obtain ⟨⟨k', ts', cs'⟩, hr, h⟩ := Except.bind_eq_ok.mp h
    dsimp only at h
    by_cases hgt : cs' > (x :: rest).length - ts'
    · rw [if_pos hgt] at h
      cases h
    · rw [if_neg hgt] at h
      simp only [Except.ok.injEq, Prod.mk.injEq] at h
      obtain ⟨rfl, rfl, rfl⟩ := h
      exact readHead_inv hr (by simpa using hgt)

/-- `readKind` reads the header of a value as the encoder writes it. -/
theorem readKind_headed {k : Kind} {c : List UInt8} (h : CanonContent k c) (r : List UInt8) :
    readKind (headed k c ++ r) = .ok (k, (canonHead k c.length).length, c.length) := by
  cases k with
  | byte =>
    obtain ⟨y, rfl⟩ := List.length_eq_one_iff.mp h.1
    have hy : y.toNat < 128 := by
      have := h.2
      simp only [List.headD_cons, UInt8.le_iff_toNat_le, UInt8.reduceToNat] at this
      omega
    exact readKind_cons (readHead_byte hy r) (by simp [canonHead])
  | string =>
    rw [headed, List.append_assoc]
    exact readKind_stringHead h.1 h.2 r
  | list =>
    rw [headed, List.append_assoc]
    exact readKind_listHead h r

/-! ## `Split` -/

/-- `Split` cuts the slice where `readKind` says the header and the content end. -/
theorem split_of_readKind {hd c r : List UInt8} {k : Kind}
    (h : readKind (hd ++ c ++ r) = .ok (k, hd.length, c.length)) :
    split (hd ++ c ++ r) = .ok (k, c, r) := by
  simp only [split, h, bind, Except.bind, pure, Except.pure]
  rw [List.append_assoc, List.drop_left, List.take_left, ← List.append_assoc, ← List.length_append,
    List.drop_left]

/-- `Split` succeeds exactly on a value as the encoder writes it followed by anything, and
returns its kind, its content and what follows. -/
theorem split_eq_ok_iff {b : List UInt8} {k : Kind} {c r : List UInt8} :
    split b = .ok (k, c, r) ↔ CanonContent k c ∧ b = headed k c ++ r := by
  constructor
  · intro h
    obtain ⟨⟨k', ts, cs⟩, hk, h⟩ := Except.bind_eq_ok.mp h
    simp only [pure, Except.pure, Except.ok.injEq, Prod.mk.injEq] at h
    obtain ⟨hk', rfl, rfl⟩ := h
    subst k'
    have hr := readKind_inv hk
    have hlen : ((b.drop ts).take cs).length = cs := by
      have := hr.fits
      simp only [List.length_take, List.length_drop]
      omega
    refine ⟨hr.content, ?_⟩
    calc b = b.take ts ++ b.drop ts := (List.take_append_drop _ _).symm
      _ = canonHead k cs ++ ((b.drop ts).take cs ++ (b.drop ts).drop cs) := by
          rw [hr.head, List.take_append_drop]
      _ = headed k ((b.drop ts).take cs) ++ b.drop (ts + cs) := by
          rw [headed, hlen, List.drop_drop, List.append_assoc]
  · rintro ⟨hc, rfl⟩
    exact split_of_readKind (readKind_headed hc r)

/-! ## `CountValues` -/

/-- A round of the loop of `CountValues`: `Split` a value off, then count the rest. -/
theorem countValuesLoop_succ (fuel : Nat) {b : List UInt8} (hb : b ≠ []) :
    countValuesLoop (fuel + 1) b =
      (split b).bind fun v => (countValuesLoop fuel v.2.2).map (· + 1) := by
  obtain ⟨x, xs, rfl⟩ := List.exists_cons_of_ne_nil hb
  simp only [countValuesLoop, split, bind, Except.bind]
  cases readKind (x :: xs) with
  | error e => rfl
  | ok v =>
    simp only [pure, Except.pure]
    cases countValuesLoop fuel ((x :: xs).drop (v.2.1 + v.2.2)) <;> rfl

/-- The loop of `CountValues`, with a bound of at least the length of the slice, returns `n`
exactly when the slice is `n` values as the encoder writes them. -/
theorem countValuesLoop_eq_ok_iff : ∀ (fuel : Nat) {b : List UInt8} {n : Nat}, b.length ≤ fuel →
    (countValuesLoop fuel b = .ok n ↔ ∃ vs : List (Kind × List UInt8),
      vs.length = n ∧ (∀ v ∈ vs, CanonContent v.1 v.2) ∧ b = headedAll vs)
  | fuel, [], n, _ => by
    have hloop : countValuesLoop fuel [] = .ok 0 := by cases fuel <;> rfl
    rw [hloop]
    constructor
    · intro h
      cases h
      exact ⟨[], rfl, by simp, rfl⟩
    · rintro ⟨vs, rfl, hc, hb⟩
      rw [eq_nil_of_headedAll hc hb.symm]
      rfl
  | 0, x :: xs, n, hlen => by simp at hlen
  | fuel + 1, x :: xs, n, hlen => by
    rw [countValuesLoop_succ fuel (List.cons_ne_nil x xs)]
    constructor
    · -- the first value, then the values the rest of the loop counted
      intro h
      obtain ⟨⟨k, c, r⟩, hs, h⟩ := Except.bind_eq_ok.mp h
      obtain ⟨hc, hb⟩ := split_eq_ok_iff.mp hs
      have hr : r.length ≤ fuel := by
        have hpos := List.length_pos_of_ne_nil (headed_ne_nil hc)
        rw [hb, List.length_append] at hlen
        omega
      cases hl : countValuesLoop fuel r with
      | error e => rw [hl] at h; cases h
      | ok m =>
        rw [hl] at h
        cases h
        obtain ⟨vs, rfl, hcs, rfl⟩ := (countValuesLoop_eq_ok_iff fuel hr).mp hl
        refine ⟨(k, c) :: vs, rfl, ?_, by rw [hb, headedAll_cons]⟩
        intro v hv
        rcases List.mem_cons.mp hv with rfl | hv
        · exact hc
        · exact hcs v hv
    · -- splitting the first value off leaves the others
      rintro ⟨vs, rfl, hcs, hb⟩
      cases vs with
      | nil => cases hb
      | cons v vs =>
        rw [show v = (v.1, v.2) from rfl, headedAll_cons] at hb
        have hc := hcs v (List.mem_cons_self ..)
        have hs := split_eq_ok_iff.mpr ⟨hc, hb⟩
        have hr : (headedAll vs).length ≤ fuel := by
          have hpos := List.length_pos_of_ne_nil (headed_ne_nil hc)
          rw [hb, List.length_append] at hlen
          omega
        have hl := (countValuesLoop_eq_ok_iff fuel hr).mpr
          ⟨vs, rfl, fun w hw => hcs w (List.mem_cons_of_mem _ hw), rfl⟩
        rw [hs]
        simp only [Except.bind, hl, Except.map, List.length_cons]

/-- `CountValues(b)` returns `n` exactly when `b` is `n` values as the encoder writes them. -/
theorem countValues_eq_ok_iff (b : List UInt8) (n : Nat) :
    countValues b = .ok n ↔ ∃ vs : List (Kind × List UInt8),
      vs.length = n ∧ (∀ v ∈ vs, CanonContent v.1 v.2) ∧ b = headedAll vs :=
  countValuesLoop_eq_ok_iff b.length le_rfl

/-! ## `Split` and the encoder -/

/-- `Split` reads back the kind, the content and what follows of what `EncodeToBytes` wrote,
it cuts a slice only where a value as the encoder writes it ends, and `CountValues` counts
exactly such values. -/
theorem split_countValues_canonical :
    (∀ (t : Item) (r : List UInt8), (encodeToBytes t).length < 2 ^ 64 →
      split (encodeToBytes t ++ r) = .ok (t.kind, t.payload, r)) ∧
    (∀ (b : List UInt8) (k : Kind) (content rest : List UInt8), split b = .ok (k, content, rest) →
      b = canonHead k content.length ++ content ++ rest) ∧
    ∀ (b : List UInt8) (n : Nat), countValues b = .ok n ↔ ∃ vs : List (Kind × List UInt8),
      vs.length = n ∧ (∀ v ∈ vs, CanonContent v.1 v.2) ∧ b = headedAll vs := by
  refine ⟨fun t r ht => ?_, fun b k content rest h => (split_eq_ok_iff.mp h).2,
    countValues_eq_ok_iff⟩
  -- the content of an item lies within its encoding
  have hpay : t.payload.length < 2 ^ 64 := by
    obtain ⟨head, he⟩ := encode_eq_append_payload t
    rw [encodeToBytes_eq_encode, he, List.length_append] at ht
    omega
  rw [encodeToBytes_eq_encode]
  exact split_encode t hpay r

/-- The list of the string `0x80` and the byte `1`, followed by an empty list: `Split` returns
the list's content, which is two values. -/
theorem split_countValues_canonical_pair :
    split (encodeToBytes (.list [.str [0x80], .str [1]]) ++ [0xC0]) =
        .ok (.list, [0x81, 0x80, 1], [0xC0]) ∧
      countValues [0x81, 0x80, 1] = .ok 2 :=
  ⟨split_countValues_canonical.1 _ _ (by decide),
    (split_countValues_canonical.2.2 _ _).mpr ⟨[(.string, [0x80]), (.byte, [1])], rfl, by decide, by decide⟩⟩

end GoMetadium.Rlp
