import Mathlib

set_option autoImplicit false

/-! # Recursive length prefix encoding

An RLP item is a byte string or a list of items. A string of one byte below `0x80` is that
byte; any other string is a header and its bytes; a list is a header and the encodings of its
items. A header is one tag byte holding the size when the size is below 56, and otherwise a
tag byte holding the length of the size followed by the size in big-endian bytes (the
encoder's `encodeString` and `puthead`).

The decoder reads one value at a time: `readKind` gives the kind of the value at the front of
a buffer with the sizes of its header and of its content, rejecting headers that are not the
shortest possible and values longer than the buffer, and `split`, `splitString`,
`splitList` and `countValues` are built on it (`raw.go`). The encoder writes no size above
`2^64 - 1`: the header then holds the length of the size in one byte with room for 8.

The main fact: `split` reads back what the encoder wrote (`split_encode`), for every item of
size below `2^64`. Nothing here mentions the program.
-/

namespace Rlp

/-- An RLP item. -/
inductive Item where
  | str (b : List UInt8)
  | list (items : List Item)

/-- `putint`: the big-endian bytes of `i` without leading zeros; one byte for zero. -/
def putint (i : Nat) : List UInt8 :=
  if i < 256 then [UInt8.ofNat i] else putint (i / 256) ++ [UInt8.ofNat (i % 256)]
termination_by i
decreasing_by omega

/-- `puthead`: the header of a value of `size` bytes, with `smalltag` for a short size and
`largetag` for a long one. -/
def puthead (smalltag largetag : UInt8) (size : Nat) : List UInt8 :=
  if size < 56 then [smalltag + UInt8.ofNat size]
  else (largetag + UInt8.ofNat (putint size).length) :: putint size

mutual

/-- The encoding of an item. -/
def Item.encode : Item → List UInt8
  | .str b => if b.length = 1 ∧ b.headD 0 ≤ 0x7F then b else puthead 0x80 0xB7 b.length ++ b
  | .list items => puthead 0xC0 0xF7 (encodeList items).length ++ encodeList items

/-- The encodings of a list of items, one after another: the content of a list. -/
def encodeList : List Item → List UInt8
  | [] => []
  | i :: is => i.encode ++ encodeList is

end

/-! ## Decoding -/

/-- The kind of an encoded value. -/
inductive Kind where
  | byte
  | string
  | list
  deriving DecidableEq, Repr

/-- The decoding errors. -/
inductive Error where
  | unexpectedEOF
  | canonSize
  | valueTooLarge
  | expectedString
  | expectedList
  deriving DecidableEq, Repr

/-- The big-endian number the bytes of `b` stand for. -/
def bigEndian (b : List UInt8) : Nat := b.foldl (fun acc x => acc * 256 + x.toNat) 0

/-- `readSize`: the size in the first `slen` bytes of `b`, which must be at least 56 and
have no leading zero byte. -/
def readSize (b : List UInt8) (slen : Nat) : Except Error Nat :=
  if b.length < slen then .error .unexpectedEOF
  else if bigEndian (b.take slen) < 56 ∨ b.headD 0 = 0 then .error .canonSize
  else .ok (bigEndian (b.take slen))

/-- The header of the value at the front of `b :: rest`: its kind, the size of the header and
the size of the content, before the check against the length of the buffer. -/
def readHead (b : UInt8) (rest : List UInt8) : Except Error (Kind × Nat × Nat) :=
  if b < 0x80 then .ok (.byte, 0, 1)
  else if b < 0xB8 then
    -- a one-byte string that should have been the byte alone
    if (b - 0x80).toNat = 1 ∧ rest.length > 0 ∧ rest.headD 0 < 128 then .error .canonSize
    else .ok (.string, 1, (b - 0x80).toNat)
  else if b < 0xC0 then
    (readSize rest (b - 0xB7).toNat).map fun s => (.string, (b - 0xB7).toNat + 1, s)
  else if b < 0xF8 then .ok (.list, 1, (b - 0xC0).toNat)
  else (readSize rest (b - 0xF7).toNat).map fun s => (.list, (b - 0xF7).toNat + 1, s)

/-- `readKind`: the kind of the value at the front of `buf` with the sizes of its header and
of its content. -/
def readKind (buf : List UInt8) : Except Error (Kind × Nat × Nat) :=
  match buf with
  | [] => .error .unexpectedEOF
  | b :: rest => do
    let (k, ts, cs) ← readHead b rest
    -- Reject values larger than the input slice.
    if cs > buf.length - ts then .error .valueTooLarge else .ok (k, ts, cs)

/-- `Split`: the kind and content of the value at the front of `b`, and the bytes after it. -/
def split (b : List UInt8) : Except Error (Kind × List UInt8 × List UInt8) := do
  let (k, ts, cs) ← readKind b
  return (k, (b.drop ts).take cs, b.drop (ts + cs))

/-- `SplitString`: the content of the string at the front of `b`, and the bytes after it. -/
def splitString (b : List UInt8) : Except Error (List UInt8 × List UInt8) := do
  let (k, content, rest) ← split b
  if k = .list then .error .expectedString else return (content, rest)

/-- `SplitList`: the content of the list at the front of `b`, and the bytes after it. -/
def splitList (b : List UInt8) : Except Error (List UInt8 × List UInt8) := do
  let (k, content, rest) ← split b
  if k ≠ .list then .error .expectedList else return (content, rest)

/-- The loop of `CountValues`, bounded by the number of bytes left: every value takes at
least one byte. -/
def countValuesLoop : Nat → List UInt8 → Except Error Nat
  | _, [] => .ok 0
  | 0, _ :: _ => .ok 0
  | fuel + 1, x :: xs => do
    let (_, ts, cs) ← readKind (x :: xs)
    let n ← countValuesLoop fuel ((x :: xs).drop (ts + cs))
    return n + 1

/-- `CountValues`: the number of values encoded one after another in `b`. -/
def countValues (b : List UInt8) : Except Error Nat := countValuesLoop b.length b

/-! ## The bytes of a size -/

theorem putint_of_lt {i : Nat} (h : i < 256) : putint i = [UInt8.ofNat i] := by
  rw [putint, if_pos h]

theorem putint_of_le {i : Nat} (h : 256 ≤ i) :
    putint i = putint (i / 256) ++ [UInt8.ofNat (i % 256)] := by
  rw [putint, if_neg (by omega)]

theorem toNat_ofNat_of_lt {i : Nat} (h : i < 256) : (UInt8.ofNat i).toNat = i :=
  UInt8.toNat_ofNat_of_lt' h

theorem bigEndian_append (a b : List UInt8) :
    bigEndian (a ++ b) = b.foldl (fun acc x => acc * 256 + x.toNat) (bigEndian a) := by
  simp [bigEndian, List.foldl_append]

/-- The bytes of a size read back as the size. -/
theorem bigEndian_putint (i : Nat) : bigEndian (putint i) = i := by
  induction i using Nat.strong_induction_on with
  | _ i ih =>
    by_cases h : i < 256
    · rw [putint_of_lt h]
      simp [bigEndian, toNat_ofNat_of_lt h]
    · rw [putint_of_le (by omega), bigEndian_append, ih (i / 256) (by omega)]
      simp only [List.foldl_cons, List.foldl_nil]
      rw [toNat_ofNat_of_lt (Nat.mod_lt _ (by omega))]
      omega

theorem putint_ne_nil (i : Nat) : putint i ≠ [] := by
  by_cases h : i < 256
  · simp [putint_of_lt h]
  · simp [putint_of_le (by omega : 256 ≤ i)]

/-- The bytes of a positive size start with a nonzero byte. -/
theorem putint_headD_ne_zero {i : Nat} (hi : 0 < i) : (putint i).headD 0 ≠ 0 := by
  induction i using Nat.strong_induction_on with
  | _ i ih =>
    by_cases h : i < 256
    · rw [putint_of_lt h]
      intro h0
      have := congrArg UInt8.toNat h0
      simp only [List.headD_cons, toNat_ofNat_of_lt h, UInt8.toNat_zero] at this
      omega
    · rw [putint_of_le (by omega)]
      obtain ⟨x, xs, hx⟩ := List.exists_cons_of_ne_nil (putint_ne_nil (i / 256))
      have := ih (i / 256) (by omega) (by omega)
      rw [hx] at this ⊢
      simpa using this

theorem bigEndian_snoc (a : List UInt8) (x : UInt8) :
    bigEndian (a ++ [x]) = bigEndian a * 256 + x.toNat := by
  simp [bigEndian_append]

/-- Leading zero bytes do not change the value. -/
theorem bigEndian_replicate_zero_append (n : Nat) (b : List UInt8) :
    bigEndian (List.replicate n 0 ++ b) = bigEndian b := by
  have hzeros : bigEndian (List.replicate n 0) = 0 := by
    induction n with
    | zero => rfl
    | succ n ih => rw [List.replicate_succ', bigEndian_snoc, ih]; rfl
  rw [bigEndian_append, hzeros]
  rfl

/-- Bytes that start with a nonzero byte have a positive value. -/
theorem bigEndian_cons_pos {x : UInt8} (hx : x ≠ 0) (b : List UInt8) : 0 < bigEndian (x :: b) := by
  induction b using List.reverseRecOn with
  | nil =>
    have : x.toNat ≠ 0 := fun h => hx (UInt8.toNat_inj.mp h)
    simp [bigEndian]
    omega
  | append_singleton b y ih =>
    rw [← List.cons_append, bigEndian_snoc]
    omega

/-- Bytes with no leading zero byte are the bytes of their value. -/
theorem putint_bigEndian_cons {x : UInt8} (hx : x ≠ 0) (b : List UInt8) :
    putint (bigEndian (x :: b)) = x :: b := by
  induction b using List.reverseRecOn with
  | nil =>
    have hlt : (bigEndian [x]) < 256 := by simp [bigEndian, x.toNat_lt]
    rw [putint_of_lt hlt]
    simp [bigEndian]
  | append_singleton b y ih =>
    have hpos := bigEndian_cons_pos hx b
    rw [← List.cons_append, bigEndian_snoc, putint_of_le (by omega)]
    have hdiv : (bigEndian (x :: b) * 256 + y.toNat) / 256 = bigEndian (x :: b) := by
      have := y.toNat_lt
      omega
    have hmod : (bigEndian (x :: b) * 256 + y.toNat) % 256 = y.toNat := by
      have := y.toNat_lt
      omega
    rw [hdiv, hmod, ih, UInt8.ofNat_toNat]

/-- A size below `256 ^ k` takes at most `k` bytes. -/
theorem length_putint_le {i k : Nat} (hk : 1 ≤ k) (h : i < 256 ^ k) : (putint i).length ≤ k := by
  induction k generalizing i with
  | zero => omega
  | succ k ih =>
    by_cases hi : i < 256
    · simp [putint_of_lt hi]
    · rw [putint_of_le (by omega), List.length_append, List.length_singleton]
      have hk1 : 1 ≤ k := by
        rcases Nat.eq_zero_or_pos k with rfl | hk
        · simp at h
          omega
        · exact hk
      have := ih hk1 (show i / 256 < 256 ^ k by rw [pow_succ] at h; omega)
      omega

/-- A size is below `256` to the number of its bytes. -/
theorem lt_pow_length_putint (i : Nat) : i < 256 ^ (putint i).length := by
  induction i using Nat.strong_induction_on with
  | _ i ih =>
    by_cases h : i < 256
    · simp [putint_of_lt h, h]
    · rw [putint_of_le (by omega), List.length_append, List.length_singleton, pow_succ]
      have := ih (i / 256) (by omega)
      omega

/-- A size written in at most eight bytes is a `uint64`. -/
theorem lt_of_length_putint_le {i : Nat} (h : (putint i).length ≤ 8) : i < 2 ^ 64 :=
  calc i < 256 ^ (putint i).length := lt_pow_length_putint i
    _ ≤ 256 ^ 8 := Nat.pow_le_pow_right (by decide) h
    _ = 2 ^ 64 := by norm_num

/-! ## Reading a header -/

/-- The kind an item is read as. -/
def Item.kind : Item → Kind
  | .str b => if b.length = 1 ∧ b.headD 0 ≤ 0x7F then .byte else .string
  | .list _ => .list

/-- The content an item is read as: its bytes, or the encodings of its items. -/
def Item.payload : Item → List UInt8
  | .str b => b
  | .list items => encodeList items

theorem readHead_byte {b : UInt8} (h : b.toNat < 128) (rest : List UInt8) :
    readHead b rest = .ok (.byte, 0, 1) := by
  simp only [readHead, UInt8.lt_iff_toNat_lt, UInt8.reduceToNat]
  rw [if_pos h]

theorem readHead_shortString {b : UInt8} (h₁ : 128 ≤ b.toNat) (h₂ : b.toNat < 184) {rest : List UInt8}
    (hcanon : ¬ (b.toNat = 129 ∧ rest.length > 0 ∧ (rest.headD 0).toNat < 128)) :
    readHead b rest = .ok (.string, 1, b.toNat - 128) := by
  have hb := UInt8.toNat_lt b
  simp only [readHead, UInt8.lt_iff_toNat_lt, UInt8.toNat_sub, UInt8.reduceToNat, Nat.reducePow] at hb ⊢
  rw [if_neg (by omega), if_pos h₂, show (256 - 128 + b.toNat) % 256 = b.toNat - 128 by omega,
    if_neg (fun h => hcanon ⟨by omega, h.2⟩)]

theorem readHead_longString {b : UInt8} (h₁ : 184 ≤ b.toNat) (h₂ : b.toNat < 192) (rest : List UInt8) :
    readHead b rest = (readSize rest (b.toNat - 183)).map fun s => (.string, b.toNat - 182, s) := by
  have hb := UInt8.toNat_lt b
  simp only [readHead, UInt8.lt_iff_toNat_lt, UInt8.toNat_sub, UInt8.reduceToNat, Nat.reducePow] at hb ⊢
  rw [if_neg (by omega), if_neg (by omega), if_pos h₂,
    show (256 - 183 + b.toNat) % 256 = b.toNat - 183 by omega,
    show b.toNat - 183 + 1 = b.toNat - 182 by omega]

theorem readHead_shortList {b : UInt8} (h₁ : 192 ≤ b.toNat) (h₂ : b.toNat < 248) (rest : List UInt8) :
    readHead b rest = .ok (.list, 1, b.toNat - 192) := by
  have hb := UInt8.toNat_lt b
  simp only [readHead, UInt8.lt_iff_toNat_lt, UInt8.toNat_sub, UInt8.reduceToNat, Nat.reducePow] at hb ⊢
  rw [if_neg (by omega), if_neg (by omega), if_neg (by omega), if_pos h₂,
    show (256 - 192 + b.toNat) % 256 = b.toNat - 192 by omega]

theorem readHead_longList {b : UInt8} (h₁ : 248 ≤ b.toNat) (rest : List UInt8) :
    readHead b rest = (readSize rest (b.toNat - 247)).map fun s => (.list, b.toNat - 246, s) := by
  have hb := UInt8.toNat_lt b
  simp only [readHead, UInt8.lt_iff_toNat_lt, UInt8.toNat_sub, UInt8.reduceToNat, Nat.reducePow] at hb ⊢
  rw [if_neg (by omega), if_neg (by omega), if_neg (by omega), if_neg (by omega),
    show (256 - 247 + b.toNat) % 256 = b.toNat - 247 by omega,
    show b.toNat - 247 + 1 = b.toNat - 246 by omega]

theorem readKind_cons {b : UInt8} {rest : List UInt8} {k : Kind} {ts cs : Nat}
    (h : readHead b rest = .ok (k, ts, cs)) (hle : ts + cs ≤ rest.length + 1) :
    readKind (b :: rest) = .ok (k, ts, cs) := by
  simp only [readKind, h, bind, Except.bind, List.length_cons]
  rw [if_neg (by omega)]

/-- The tag bytes: a tag plus a small number. -/
theorem toNat_tag {t : UInt8} {n : Nat} (h : t.toNat + n < 256) :
    (t + UInt8.ofNat n).toNat = t.toNat + n := by
  rw [UInt8.toNat_add, toNat_ofNat_of_lt (by omega)]
  exact Nat.mod_eq_of_lt h

/-- A header byte is its tag plus the number it carries. -/
theorem eq_tag {b t : UInt8} {x : Nat} (hb : b.toNat = t.toNat + x) : b = t + UInt8.ofNat x :=
  UInt8.toNat_inj.mp (by rw [toNat_tag (by have := b.toNat_lt; omega)]; exact hb)

/-- The size written in a long header is read back. -/
theorem readSize_putint {s : Nat} (hs : 56 ≤ s) (rest : List UInt8) :
    readSize (putint s ++ rest) (putint s).length = .ok s := by
  have hhead : (putint s ++ rest).headD 0 = (putint s).headD 0 := by
    obtain ⟨x, xs, hx⟩ := List.exists_cons_of_ne_nil (putint_ne_nil s)
    simp [hx]
  simp only [readSize, List.length_append, List.take_left', bigEndian_putint, hhead]
  rw [if_neg (by omega), if_neg]
  rintro (h | h)
  · omega
  · exact putint_headD_ne_zero (by omega) h

/-- The length of a long size, as the tag holds it. -/
theorem length_putint_bounds {s : Nat} (hs : s < 2 ^ 64) :
    1 ≤ (putint s).length ∧ (putint s).length ≤ 8 :=
  ⟨List.length_pos_of_ne_nil (putint_ne_nil s), length_putint_le (by omega) (by simpa using hs)⟩

/-! ## Reading back what was written -/

/-- `readKind` reads the header of a string the encoder wrote with a header. -/
theorem readKind_stringHead {b : List UInt8} (hb : ¬ (b.length = 1 ∧ b.headD 0 ≤ 0x7F))
    (hi : b.length < 2 ^ 64) (rest : List UInt8) :
    readKind (puthead 0x80 0xB7 b.length ++ (b ++ rest)) =
      .ok (.string, (puthead 0x80 0xB7 b.length).length, b.length) := by
  unfold puthead
  by_cases hs : b.length < 56
  · have ht : ((0x80 : UInt8) + UInt8.ofNat b.length).toNat = 128 + b.length :=
      toNat_tag (by simp only [UInt8.reduceToNat]; omega)
    -- a one-byte string has a header only when its byte is not below 0x80
    have hcanon : ¬ (((0x80 : UInt8) + UInt8.ofNat b.length).toNat = 129 ∧ (b ++ rest).length > 0 ∧
        ((b ++ rest).headD 0).toNat < 128) := by
      rintro ⟨h1, -, h2⟩
      obtain ⟨x, rfl⟩ : ∃ x, b = [x] := List.length_eq_one_iff.mp (by omega)
      simp only [List.cons_append, List.headD_cons] at h2
      exact hb ⟨rfl, by simp only [List.headD_cons, UInt8.le_iff_toNat_le, UInt8.reduceToNat]; omega⟩
    have h := readHead_shortString (by omega) (by omega) hcanon
    rw [ht, show 128 + b.length - 128 = b.length by omega] at h
    rw [if_pos hs, List.singleton_append, readKind_cons h (by simp; omega)]
    rfl
  · obtain ⟨hL₁, hL₈⟩ := length_putint_bounds hi
    have ht : ((0xB7 : UInt8) + UInt8.ofNat (putint b.length).length).toNat =
        183 + (putint b.length).length := toNat_tag (by simp only [UInt8.reduceToNat]; omega)
    have h := readHead_longString (b := (0xB7 : UInt8) + UInt8.ofNat (putint b.length).length)
      (by omega) (by omega) (putint b.length ++ (b ++ rest))
    rw [ht, show 183 + (putint b.length).length - 183 = (putint b.length).length by omega,
      readSize_putint (by omega), show 183 + (putint b.length).length - 182 = (putint b.length).length + 1 by omega] at h
    rw [if_neg hs, List.cons_append, readKind_cons h (by simp; omega)]
    rfl

/-- `readKind` reads the header of a list the encoder wrote. -/
theorem readKind_listHead {payload : List UInt8} (hi : payload.length < 2 ^ 64) (rest : List UInt8) :
    readKind (puthead 0xC0 0xF7 payload.length ++ (payload ++ rest)) =
      .ok (.list, (puthead 0xC0 0xF7 payload.length).length, payload.length) := by
  unfold puthead
  by_cases hs : payload.length < 56
  · have ht : ((0xC0 : UInt8) + UInt8.ofNat payload.length).toNat = 192 + payload.length :=
      toNat_tag (by simp only [UInt8.reduceToNat]; omega)
    have h := readHead_shortList (b := (0xC0 : UInt8) + UInt8.ofNat payload.length)
      (by omega) (by omega) (payload ++ rest)
    rw [ht, show 192 + payload.length - 192 = payload.length by omega] at h
    rw [if_pos hs, List.singleton_append, readKind_cons h (by simp; omega)]
    rfl
  · obtain ⟨hL₁, hL₈⟩ := length_putint_bounds hi
    have ht : ((0xF7 : UInt8) + UInt8.ofNat (putint payload.length).length).toNat =
        247 + (putint payload.length).length := toNat_tag (by simp only [UInt8.reduceToNat]; omega)
    have h := readHead_longList (b := (0xF7 : UInt8) + UInt8.ofNat (putint payload.length).length)
      (by omega) (putint payload.length ++ (payload ++ rest))
    rw [ht, show 247 + (putint payload.length).length - 247 = (putint payload.length).length by omega,
      readSize_putint (by omega),
      show 247 + (putint payload.length).length - 246 = (putint payload.length).length + 1 by omega] at h
    rw [if_neg hs, List.cons_append, readKind_cons h (by simp; omega)]
    rfl

/-- `readKind` reads the header the encoder wrote. -/
theorem readKind_encode (i : Item) (hi : i.payload.length < 2 ^ 64) (rest : List UInt8) :
    readKind (i.encode ++ rest) =
      .ok (i.kind, i.encode.length - i.payload.length, i.payload.length) := by
  cases i with
  | str b =>
    simp only [Item.encode, Item.kind, Item.payload] at hi ⊢
    by_cases hb : b.length = 1 ∧ b.headD 0 ≤ 0x7F
    · -- a byte below 0x80 stands for itself
      obtain ⟨x, rfl⟩ : ∃ x, b = [x] := List.length_eq_one_iff.mp hb.1
      have hx : x.toNat < 128 := by
        have h := hb.2
        simp only [List.headD_cons, UInt8.le_iff_toNat_le, UInt8.reduceToNat] at h
        omega
      rw [if_pos hb, if_pos hb]
      exact readKind_cons (readHead_byte hx rest) (by simp)
    · rw [if_neg hb, if_neg hb, List.append_assoc, readKind_stringHead hb hi]
      simp
  | list items =>
    simp only [Item.encode, Item.kind, Item.payload] at hi ⊢
    rw [List.append_assoc, readKind_listHead hi]
    simp

/-- An encoding is a header followed by the content. -/
theorem encode_eq_append_payload (i : Item) : ∃ head, i.encode = head ++ i.payload := by
  cases i with
  | str b =>
    simp only [Item.encode, Item.payload]
    split
    · exact ⟨[], rfl⟩
    · exact ⟨_, rfl⟩
  | list items => exact ⟨_, rfl⟩

/-- `split` reads back the kind and content of an item the encoder wrote, and what follows. -/
theorem split_encode (i : Item) (hi : i.payload.length < 2 ^ 64) (rest : List UInt8) :
    split (i.encode ++ rest) = .ok (i.kind, i.payload, rest) := by
  obtain ⟨head, he⟩ := encode_eq_append_payload i
  have hk := readKind_encode i hi rest
  rw [he] at hk ⊢
  simp only [split, hk, bind, Except.bind, pure, Except.pure, List.length_append, Nat.add_sub_cancel]
  rw [List.append_assoc, List.drop_left, List.take_left, ← List.append_assoc, ← List.length_append,
    List.drop_left]

/-! ## An encoding is never empty -/

theorem encode_ne_nil (i : Item) : i.encode ≠ [] := by
  cases i with
  | str b =>
    simp only [Item.encode]
    split
    · rename_i h
      exact List.ne_nil_of_length_pos (by omega)
    · simp [puthead]
      split <;> simp
  | list items =>
    simp only [Item.encode, puthead]
    split <;> simp

end Rlp
