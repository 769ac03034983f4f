import GoMetadium.Rlp.Stream
import GoMetadium.Rlp.Encbuf

/-! # Decoding inverts encoding (`rlp/decode.go`, `rlp/encode.go`)

`DecodeBytes(EncodeToBytes(t), &v)` into an empty interface gives back the item tree `t`, and
what `DecodeBytes` accepts is exactly what `EncodeToBytes` writes: every byte string it
decodes is the encoding of the value it returns. The first half runs the decoder over an
encoding; the second reads the encoding off a successful run, the canonical checks of
`readKind`, `readUint` and `Bytes` leaving no other header, and `EOL` with `ListEnd` leaving
no other list length.

Both halves go by induction, on the item tree for the first and on the decoder's nesting
bound for the second, with `Reads` as the invariant: the bytes of whole values read, and the
stream charged for them.
-/

set_option autoImplicit false

open Rlp

namespace GoMetadium.Rlp

/-! ## Reading whole values -/

/-- `s'` is `s` after reading the bytes `e` as whole values: they are gone from the input and
charged to the input limit and the innermost list, and no kind is cached. -/
structure Reads (s : Stream) (e : List UInt8) (s' : Stream) : Prop where
  input : s.input = e ++ s'.input
  remaining : s'.remaining = s.remaining - e.length
  limited : s'.limited = s.limited
  kind : s'.kind = none
  stack : s'.stack = bumpTop s.stack e.length

theorem Reads.trans {s s₁ s₂ : Stream} {e₁ e₂ : List UInt8} (h₁ : Reads s e₁ s₁)
    (h₂ : Reads s₁ e₂ s₂) : Reads s (e₁ ++ e₂) s₂ where
  input := by rw [h₁.input, h₂.input, List.append_assoc]
  remaining := by rw [h₂.remaining, h₁.remaining, List.length_append, Nat.sub_sub]
  limited := h₂.limited.trans h₁.limited
  kind := h₂.kind
  stack := by rw [h₂.stack, h₁.stack, bumpTop_bumpTop, List.length_append]

/-- `s` is about to read the value encoded as `e`, followed by `rest`: nothing is cached, the
input is limited, and the value fits the limit and the innermost list. -/
structure AtValue (s : Stream) (e rest : List UInt8) : Prop where
  kind : s.kind = none
  limited : s.limited = true
  input : s.input = e ++ rest
  fits : Fits s e.length

/-- `s` is about to read the elements `p` of the innermost list, which end where `p` ends. -/
structure AtItems (s : Stream) (p rest : List UInt8) : Prop where
  kind : s.kind = none
  limited : s.limited = true
  input : s.input = p ++ rest
  remaining : p.length ≤ s.remaining
  top : ∃ tos st, s.stack = tos :: st ∧ tos.pos + p.length = tos.size

/-- The first element of a list is a value that fits. -/
theorem AtItems.atValue {s : Stream} {e p rest : List UInt8} (h : AtItems s (e ++ p) rest) :
    AtValue s e (p ++ rest) where
  kind := h.kind
  limited := h.limited
  input := by rw [h.input, List.append_assoc]
  fits := by
    refine ⟨by have := h.remaining; simp at this; omega, ?_⟩
    intro tos st hst
    obtain ⟨tos', st', hst', htop⟩ := h.top
    rw [hst'] at hst
    cases hst
    simp at htop
    omega

/-- Having read the first element, the rest of the list is next. -/
theorem AtItems.next {s s₁ : Stream} {e p rest : List UInt8} (h : AtItems s (e ++ p) rest)
    (hr : Reads s e s₁) : AtItems s₁ p rest where
  kind := hr.kind
  limited := hr.limited.trans h.limited
  input := by
    have h₁ := h.input
    rw [hr.input, List.append_assoc] at h₁
    exact List.append_cancel_left h₁
  remaining := by
    have := h.remaining
    rw [hr.remaining]
    simp at this
    omega
  top := by
    obtain ⟨tos, st, hst, htop⟩ := h.top
    refine ⟨{ tos with pos := tos.pos + e.length }, st, by rw [hr.stack, hst, bumpTop_cons], ?_⟩
    simp at htop ⊢
    omega

/-! ## The decoder's two branches -/

section Branches

variable {s s₁ : Stream} {fuel n : Nat}

/-- A list: `List`, the elements until `EOL`, and `ListEnd`. -/
theorem decodeInterface_list (hkind : kind.run s = .ok (.list, n) s₁) :
    (decodeInterface (fuel + 1)).run s = (do
      let _ ← list
      let items ← decodeElems fuel
      listEnd
      pure (Item.list items) : StreamM Item).run s₁ := by
  simp only [decodeInterface, EStateM.run_bind, hkind]
  rfl

/-- Anything else: `Bytes`. -/
theorem decodeInterface_str {k : Kind} (hkind : kind.run s = .ok (k, n) s₁) (hk : k ≠ .list) :
    (decodeInterface (fuel + 1)).run s = (do
      let b ← bytes
      pure (Item.str b) : StreamM Item).run s₁ := by
  simp only [decodeInterface, EStateM.run_bind, hkind, hk, if_false]

/-- `Kind` failing fails the value. -/
theorem decodeInterface_kind_error {e : StreamError} (hkind : kind.run s = .error e s₁) :
    (decodeInterface (fuel + 1)).run s = .error e s₁ := by
  simp only [decodeInterface, EStateM.run_bind, hkind]

/-- The loop over the elements stops at `EOL`. -/
theorem decodeElems_eol (h : (decodeInterface fuel).run s = .error .eol s₁) :
    (decodeElems (fuel + 1)).run s = .ok [] s₁ := by
  simp only [decodeElems, EStateM.run_bind, attempt_run, h]
  rfl

/-- Any other error ends the loop with it. -/
theorem decodeElems_error {e : StreamError} (h : (decodeInterface fuel).run s = .error e s₁)
    (he : e ≠ .eol) : (decodeElems (fuel + 1)).run s = .error e s₁ := by
  simp only [decodeElems, EStateM.run_bind, attempt_run, h]
  cases e <;> first | exact absurd rfl he | rfl

/-- An element read, the loop goes on. -/
theorem decodeElems_cons {v : Item} (h : (decodeInterface fuel).run s = .ok v s₁) :
    (decodeElems (fuel + 1)).run s =
      (do let vs ← decodeElems fuel; pure (v :: vs) : StreamM (List Item)).run s₁ := by
  simp only [decodeElems, EStateM.run_bind, attempt_run, h]

end Branches

/-! ## Decoding an encoding -/

/-- A string decodes from its encoding: as a single byte below `0x80`, or through its header. -/
theorem decodeInterface_encode_str {b : List UInt8} {fuel : Nat} {s : Stream} {rest : List UInt8}
    (hlen : (Item.str b).encode.length < 2 ^ 64) (hk : s.kind = none) (hlim : s.limited = true)
    (hin : s.input = (Item.str b).encode ++ rest) (hfit : Fits s (Item.str b).encode.length) :
    ∃ s', (decodeInterface (fuel + 1)).run s = .ok (.str b) s' ∧ Reads s (Item.str b).encode s' := by
  by_cases hb : b.length = 1 ∧ b.headD 0 ≤ 0x7F
  · -- a byte below 0x80 is its own encoding
    obtain ⟨x, rfl⟩ : ∃ x, b = [x] := List.length_eq_one_iff.mp hb.1
    have he : (Item.str [x]).encode = [x] := by simp only [Item.encode, if_pos hb]
    have hx : x < 0x80 := by
      have := hb.2
      simp only [List.headD_cons, UInt8.le_iff_toNat_le, UInt8.reduceToNat] at this
      exact UInt8.lt_iff_toNat_lt.mpr (by simp only [UInt8.reduceToNat]; omega)
    rw [he] at hin hfit ⊢
    have hkind := kind_of_head hk hlim (.byte hx) hfit hin
    have hrun : (decodeInterface (fuel + 1)).run s =
        .ok (.str [x]) { s.afterHead [x].length .byte 0 x with kind := none } := by
      rw [decodeInterface_str hkind (by simp), EStateM.run_bind, bytes_byte rfl rfl]
      rfl
    exact ⟨_, hrun, by constructor <;> simp [hin]⟩
  · -- a header, then the bytes whole
    have he : (Item.str b).encode = puthead 0x80 0xB7 b.length ++ b := by
      simp only [Item.encode, if_neg hb]
    rw [he] at hlen hin hfit ⊢
    have hblen : b.length < 2 ^ 64 := by simp at hlen; omega
    have hin' : s.input = puthead 0x80 0xB7 b.length ++ (b ++ rest) := by
      rw [hin, List.append_assoc]
    have hkind := kind_of_head hk hlim (.string hblen) (by simpa using hfit) hin'
    have htake : ((s.afterHead (puthead 0x80 0xB7 b.length).length .string b.length 0).input.take
        b.length) = b := by simp [hin']
    -- `Bytes` refuses a single byte below 0x80 only, and `b` is not one
    have hcanon : ¬ (b.length = 1 ∧ b.headD 0 < 128) := by
      rintro ⟨h1, h2⟩
      exact hb ⟨h1, UInt8.le_iff_toNat_le.mpr (by
        have := UInt8.lt_iff_toNat_lt.mp h2
        simp only [UInt8.reduceToNat] at this ⊢
        omega)⟩
    have hbytes := bytes_string
      (s := s.afterHead (puthead 0x80 0xB7 b.length).length .string b.length 0) rfl rfl
      (by simpa using hlim) (fits_skip (by simpa using hfit)) (by simp [hin'])
      (by rw [afterHead_size, htake]; exact hcanon)
    have hrun : (decodeInterface (fuel + 1)).run s = .ok (.str b)
        ((s.afterHead (puthead 0x80 0xB7 b.length).length .string b.length 0).skip b.length) := by
      rw [decodeInterface_str hkind (by simp), EStateM.run_bind, hbytes]
      simp only [afterHead_size, htake]
      rfl
    exact ⟨_, hrun, by constructor <;> simp [hin', bumpTop_bumpTop, Nat.sub_sub]⟩

/-- A list decodes from its encoding, given that its elements decode from theirs. -/
theorem decodeInterface_encode_list {items : List Item} {fuel : Nat} {s : Stream}
    {rest : List UInt8} (hlen : (encodeList items).length < 2 ^ 64)
    (hat : AtValue s (Item.list items).encode rest)
    (helems : ∀ s₂, AtItems s₂ (encodeList items) rest →
      ∃ s₃, (decodeElems fuel).run s₂ = .ok items s₃ ∧ Reads s₂ (encodeList items) s₃) :
    ∃ s', (decodeInterface (fuel + 1)).run s = .ok (.list items) s' ∧
      Reads s (Item.list items).encode s' := by
  have he : (Item.list items).encode = (puthead 0xC0 0xF7 (encodeList items).length) ++ encodeList items := rfl
  have hin : s.input = (puthead 0xC0 0xF7 (encodeList items).length) ++ (encodeList items ++ rest) := by
    rw [hat.input, he, List.append_assoc]
  have hfit : Fits s ((puthead 0xC0 0xF7 (encodeList items).length).length + (encodeList items).length) := by
    have := hat.fits
    rwa [he, List.length_append] at this
  have hkind := kind_of_head hat.kind hat.limited (.list hlen) hfit hin
  -- `List` pushes the list on the stack; its elements are next, and end with it
  have hlist := list_ok (s := s.afterHead (puthead 0xC0 0xF7 (encodeList items).length).length .list (encodeList items).length 0) rfl rfl
  obtain ⟨s₃, hdec, hreads⟩ := helems (s.afterHead (puthead 0xC0 0xF7 (encodeList items).length).length .list (encodeList items).length 0).enterList {
    kind := rfl
    limited := by simpa using hat.limited
    input := by rw [enterList_input, afterHead_input, hin, List.drop_left]
    remaining := by have := hfit.1; simp; omega
    top := ⟨_, _, rfl, by simp⟩ }
  have hst₃ : s₃.stack = ⟨(encodeList items).length, (encodeList items).length⟩ :: bumpTop s.stack (puthead 0xC0 0xF7 (encodeList items).length).length := by
    rw [hreads.stack]
    simp
  have hrun : (decodeInterface (fuel + 1)).run s = .ok (.list items)
      (s₃.leaveList (bumpTop s.stack (puthead 0xC0 0xF7 (encodeList items).length).length) (encodeList items).length) := by
    rw [decodeInterface_list hkind, EStateM.run_bind, hlist]
    dsimp only
    rw [EStateM.run_bind, hdec]
    dsimp only
    rw [EStateM.run_bind, listEnd_ok hst₃ rfl]
    rfl
  have hin₃ := hreads.input
  rw [enterList_input, afterHead_input, hin, List.drop_left, List.append_cancel_left_eq] at hin₃
  refine ⟨_, hrun, ⟨?_, ?_, ?_, rfl, ?_⟩⟩
  · rw [hin, he, hin₃, List.append_assoc]
    rfl
  · simp [hreads.remaining, he, Nat.sub_sub]
  · simp [hreads.limited]
  · simp [he, bumpTop_bumpTop]

/-- At the end of a list the loop reads `EOL` and stops, having read nothing. -/
theorem decodeElems_encode_nil {fuel : Nat} {s : Stream} {rest : List UInt8}
    (hat : AtItems s [] rest) :
    ∃ s', (decodeElems (fuel + 2)).run s = .ok [] s' ∧ Reads s [] s' := by
  obtain ⟨tos, st, hst, htop⟩ := hat.top
  have hrun : (decodeElems (fuel + 2)).run s = .ok [] { s with kinderr := none } :=
    decodeElems_eol (decodeInterface_kind_error (kind_eol hat.kind hst (by simpa using htop)))
  exact ⟨_, hrun, ⟨by simp, by simp, rfl, hat.kind, by simp⟩⟩

/-- The loop reads the first element, then the others. -/
theorem decodeElems_encode_cons {i : Item} {is : List Item} {fuel : Nat} {s : Stream}
    {rest : List UInt8} (hat : AtItems s (encodeList (i :: is)) rest)
    (hi : ∀ s, AtValue s i.encode (encodeList is ++ rest) →
      ∃ s', (decodeInterface fuel).run s = .ok i s' ∧ Reads s i.encode s')
    (his : ∀ s, AtItems s (encodeList is) rest →
      ∃ s', (decodeElems fuel).run s = .ok is s' ∧ Reads s (encodeList is) s') :
    ∃ s', (decodeElems (fuel + 1)).run s = .ok (i :: is) s' ∧
      Reads s (encodeList (i :: is)) s' := by
  obtain ⟨s₁, h₁, hr₁⟩ := hi s hat.atValue
  obtain ⟨s₂, h₂, hr₂⟩ := his s₁ (hat.next hr₁)
  rw [decodeElems_cons h₁, EStateM.run_bind, h₂]
  exact ⟨s₂, rfl, hr₁.trans hr₂⟩

mutual

/-- The decoder reads back an item from its encoding, by induction on the item tree; each
nesting level costs two of the bound, one for the value and one for `EOL`. -/
theorem decodeInterface_encode : ∀ (t : Item) (fuel : Nat) (s : Stream) (rest : List UInt8),
    2 * t.encode.length + 1 ≤ fuel → t.encode.length < 2 ^ 64 → AtValue s t.encode rest →
    ∃ s', (decodeInterface fuel).run s = .ok t s' ∧ Reads s t.encode s'
  | _, 0, _, _, hfuel, _, _ => absurd hfuel (by omega)
  | .str _, _ + 1, _, _, _, hlen, hat =>
    decodeInterface_encode_str hlen hat.kind hat.limited hat.input hat.fits
  | .list items, fuel + 1, _, rest, hfuel, hlen, hat => by
    have he : (Item.list items).encode.length =
        (puthead 0xC0 0xF7 (encodeList items).length).length + (encodeList items).length := by
      simp [Item.encode]
    have hput : 0 < (puthead 0xC0 0xF7 (encodeList items).length).length := by
      unfold puthead
      split <;> simp
    exact decodeInterface_encode_list (by omega) hat fun s₂ h₂ =>
      decodeElems_encode items fuel s₂ rest (by omega) (by omega) h₂

/-- The loop reads back the elements of a list from their encodings. -/
theorem decodeElems_encode : ∀ (items : List Item) (fuel : Nat) (s : Stream) (rest : List UInt8),
    2 * (encodeList items).length + 2 ≤ fuel → (encodeList items).length < 2 ^ 64 →
    AtItems s (encodeList items) rest →
    ∃ s', (decodeElems fuel).run s = .ok items s' ∧ Reads s (encodeList items) s'
  | [], fuel, _, _, hfuel, _, hat => by
    obtain ⟨fuel, rfl⟩ : ∃ f, fuel = f + 2 := ⟨fuel - 2, by simp [encodeList] at hfuel; omega⟩
    exact decodeElems_encode_nil hat
  | i :: is, 0, _, _, hfuel, _, _ => absurd hfuel (by omega)
  | i :: is, fuel + 1, _, rest, hfuel, hlen, hat => by
    have hi := List.length_pos_of_ne_nil (encode_ne_nil i)
    have hsplit : (encodeList (i :: is)).length = i.encode.length + (encodeList is).length := by
      simp [encodeList]
    exact decodeElems_encode_cons hat
      (fun s h => decodeInterface_encode i fuel s _ (by omega) (by omega) h)
      (fun s h => decodeElems_encode is fuel s rest (by omega) (by omega) h)

end

/-! ## What the decoder accepts is an encoding -/

/-- The loop over the elements never fails with `EOL`: it stops there. -/
theorem decodeElems_error_ne_eol (fuel : Nat) :
    ∀ {s s' : Stream} {e : StreamError}, (decodeElems fuel).run s = .error e s' → e ≠ .eol := by
  induction fuel with
  | zero =>
    intro s s' e h
    cases h
    simp
  | succ fuel ih =>
    intro s s' e h
    rcases hr : (decodeInterface fuel).run s with ⟨v, s₁⟩ | ⟨e₁, s₁⟩
    · rw [decodeElems_cons hr] at h
      rcases EStateM.run_bind_eq_error.mp h with h | ⟨vs, s₂, -, h⟩
      · exact ih h
      · cases h
    · by_cases he₁ : e₁ = .eol
      · subst he₁
        rw [decodeElems_eol hr] at h
        cases h
      · rw [decodeElems_error hr he₁] at h
        cases h
        exact he₁

/-- A value fails with `EOL` only at the end of the innermost list, having read nothing:
once `Kind` has read a header, nothing after it fails with `EOL`. -/
theorem decodeInterface_eol {fuel : Nat} {s s' : Stream} (hk : s.kind = none)
    (hlim : s.limited = true) (h : (decodeInterface fuel).run s = .error .eol s') :
    (∃ tos rest, s.stack = tos :: rest ∧ tos.pos = tos.size) ∧ s' = { s with kinderr := none } := by
  cases fuel with
  | zero => cases h
  | succ fuel =>
    rcases hkind : kind.run s with ⟨⟨k, n⟩, s₁⟩ | ⟨e, s₁⟩
    · obtain ⟨hd, bv, -, -, rfl⟩ := head_of_kind hk hlim hkind
      by_cases hl : k = .list
      · subst hl
        rw [decodeInterface_list hkind, EStateM.run_bind, list_ok rfl rfl] at h
        rcases EStateM.run_bind_eq_error.mp h with h | ⟨items, s₂, -, h⟩
        · exact absurd rfl (decodeElems_error_ne_eol fuel h)
        rcases EStateM.run_bind_eq_error.mp h with h | ⟨u, s₃, -, h⟩
        · exact absurd rfl (listEnd_error h)
        · cases h
      · rw [decodeInterface_str hkind hl] at h
        rcases EStateM.run_bind_eq_error.mp h with h | ⟨b, s₂, -, h⟩
        · exact absurd rfl (bytes_error rfl rfl h)
        · cases h
    · rw [decodeInterface_kind_error hkind] at h
      cases h
      exact kind_error_eol hk hkind

/-- What a run of the decoder read for a value is the value's encoding, given that for the
elements of a list; the three canonical checks are where `head_of_kind` and `bytes_inv`
leave only the encoder's forms. -/
theorem encode_of_decodeInterface_step {fuel : Nat} {s s' : Stream} {v : Item}
    (hk : s.kind = none) (hlim : s.limited = true)
    (h : (decodeInterface (fuel + 1)).run s = .ok v s')
    (helems : ∀ {s₂ s₃ : Stream} {vs : List Item}, s₂.kind = none → s₂.limited = true →
      (decodeElems fuel).run s₂ = .ok vs s₃ →
      Reads s₂ (encodeList vs) s₃ ∧ ∃ tos rest, s₃.stack = tos :: rest ∧ tos.pos = tos.size) :
    Reads s v.encode s' := by
  rcases hkind : kind.run s with ⟨⟨k, n⟩, s₁⟩ | ⟨e, s₁⟩
  · obtain ⟨hd, bv, hh, hin, rfl⟩ := head_of_kind hk hlim hkind
    cases hh with
    | byte hb =>
      -- a single byte below 0x80
      rw [decodeInterface_str hkind (by simp)] at h
      obtain ⟨b, s₂, hbytes, h⟩ := EStateM.run_bind_eq_ok.mp h
      rcases bytes_inv rfl rfl (by simpa using hlim) hbytes with ⟨-, rfl, rfl⟩ | ⟨hks, -⟩
      · cases h
        have he : (Item.str [bv]).encode = [bv] := by
          simp only [Item.encode, List.length_singleton, List.headD_cons, true_and]
          rw [if_pos (UInt8.le_iff_toNat_le.mpr (by
            have := UInt8.lt_iff_toNat_lt.mp hb
            simp only [UInt8.reduceToNat] at this ⊢
            omega))]
        rw [afterHead_byteval, he]
        exact ⟨by simpa using hin, by simp, by simp, rfl, by simp⟩
      · cases hks
    | string hn =>
      -- a header, then the content whole, not a single byte below 0x80
      rw [decodeInterface_str hkind (by simp)] at h
      obtain ⟨b, s₂, hbytes, h⟩ := EStateM.run_bind_eq_ok.mp h
      rcases bytes_inv rfl rfl (by simpa using hlim) hbytes with ⟨hks, -⟩ | ⟨-, rfl, hlen, hcanon, rfl⟩
      · cases hks
      · cases h
        simp only [afterHead_size] at hlen hcanon ⊢
        generalize hX : s.afterHead (puthead 0x80 0xB7 n).length .string n 0 = X at hin hlen hcanon ⊢
        have hb : (X.input.take n).length = n := List.length_take_of_le hlen
        have hnot : ¬ ((X.input.take n).length = 1 ∧ (X.input.take n).headD 0 ≤ 0x7F) := by
          rintro ⟨h1, h2⟩
          exact hcanon ⟨hb ▸ h1, UInt8.lt_iff_toNat_lt.mpr (by
            have := UInt8.le_iff_toNat_le.mp h2
            simp only [UInt8.reduceToNat] at this ⊢
            omega)⟩
        have he : (Item.str (X.input.take n)).encode = puthead 0x80 0xB7 n ++ X.input.take n := by
          simp only [Item.encode]
          rw [if_neg hnot, hb]
        rw [he]
        refine ⟨?_, ?_, ?_, rfl, ?_⟩
        · rw [hin, skip_input, List.append_assoc, List.take_append_drop]
        · subst hX
          rw [List.length_append, hb]
          simp [Nat.sub_sub]
        · subst hX
          simp
        · subst hX
          rw [List.length_append, hb]
          simp [bumpTop_bumpTop]
    | list hn =>
      -- `List`, the elements up to `EOL`, and `ListEnd` where the list ends
      rw [decodeInterface_list hkind] at h
      obtain ⟨n', s₂, hl, h⟩ := EStateM.run_bind_eq_ok.mp h
      obtain ⟨-, -, rfl⟩ := list_inv rfl rfl hl
      obtain ⟨vs, s₃, hdec, h⟩ := EStateM.run_bind_eq_ok.mp h
      obtain ⟨hreads, -⟩ := helems rfl (by simpa using hlim) hdec
      obtain ⟨u, s₄, hle, h⟩ := EStateM.run_bind_eq_ok.mp h
      obtain ⟨tos, rest, hst, hend, rfl⟩ := listEnd_inv hle
      cases h
      -- the list ends where its elements end: its size is theirs
      have hst' := hreads.stack
      rw [hst] at hst'
      simp only [enterList_stack, afterHead_size, afterHead_stack, bumpTop_cons, List.cons.injEq] at hst'
      obtain ⟨rfl, rfl⟩ := hst'
      simp only [Nat.zero_add] at hend
      subst hend
      have hin₃ := hreads.input
      simp only [enterList_input, afterHead_input] at hin₃
      refine ⟨?_, ?_, ?_, rfl, ?_⟩
      · show s.input = (puthead 0xC0 0xF7 (encodeList vs).length ++ encodeList vs) ++ s₃.input
        rw [List.append_assoc, ← hin₃]
        simpa using hin
      · simp [hreads.remaining, Item.encode, Nat.sub_sub]
      · simp [hreads.limited]
      · simp [Item.encode, bumpTop_bumpTop]
  · rw [decodeInterface_kind_error hkind] at h
    cases h

/-- What a run of the loop read is the encodings of the elements it returned, up to the end of
the innermost list, given that for each element and for the rest. -/
theorem encode_of_decodeElems_step {fuel : Nat} {s s' : Stream} {vs : List Item}
    (hk : s.kind = none) (hlim : s.limited = true)
    (h : (decodeElems (fuel + 1)).run s = .ok vs s')
    (hval : ∀ {s₁ s₂ : Stream} {v : Item}, s₁.kind = none → s₁.limited = true →
      (decodeInterface fuel).run s₁ = .ok v s₂ → Reads s₁ v.encode s₂)
    (hrest : ∀ {s₁ s₂ : Stream} {vs : List Item}, s₁.kind = none → s₁.limited = true →
      (decodeElems fuel).run s₁ = .ok vs s₂ →
      Reads s₁ (encodeList vs) s₂ ∧ ∃ tos rest, s₂.stack = tos :: rest ∧ tos.pos = tos.size) :
    Reads s (encodeList vs) s' ∧ ∃ tos rest, s'.stack = tos :: rest ∧ tos.pos = tos.size := by
  rcases hr : (decodeInterface fuel).run s with ⟨v, s₁⟩ | ⟨e, s₁⟩
  · -- an element, then the rest of the list
    rw [decodeElems_cons hr] at h
    obtain ⟨vs', s₂, h₂, h⟩ := EStateM.run_bind_eq_ok.mp h
    cases h
    have r₁ := hval hk hlim hr
    obtain ⟨r₂, htop⟩ := hrest r₁.kind (r₁.limited.trans hlim) h₂
    exact ⟨r₁.trans r₂, htop⟩
  · by_cases he : e = .eol
    · -- `EOL`: the end of the list, nothing read
      subst he
      rw [decodeElems_eol hr] at h
      cases h
      obtain ⟨⟨tos, rest, hst, hend⟩, rfl⟩ := decodeInterface_eol hk hlim hr
      exact ⟨⟨by simp [encodeList], by simp [encodeList], rfl, hk, by simp [encodeList]⟩,
        tos, rest, hst, hend⟩
    · rw [decodeElems_error hr he] at h
      cases h

mutual

/-- A value the decoder read is the encoding of what it returned, by induction on the
nesting bound. -/
theorem encode_of_decodeInterface : ∀ (fuel : Nat) (s s' : Stream) (v : Item),
    s.kind = none → s.limited = true → (decodeInterface fuel).run s = .ok v s' →
    Reads s v.encode s'
  | 0, _, _, _, _, _, h => by cases h
  | fuel + 1, _, _, _, hk, hlim, h =>
    encode_of_decodeInterface_step hk hlim h fun hk' hlim' h' =>
      encode_of_decodeElems fuel _ _ _ hk' hlim' h'

/-- The elements the loop read are the encodings of what it returned, up to the end of the
innermost list. -/
theorem encode_of_decodeElems : ∀ (fuel : Nat) (s s' : Stream) (vs : List Item),
    s.kind = none → s.limited = true → (decodeElems fuel).run s = .ok vs s' →
    Reads s (encodeList vs) s' ∧ ∃ tos rest, s'.stack = tos :: rest ∧ tos.pos = tos.size
  | 0, _, _, _, _, _, h => by cases h
  | fuel + 1, _, _, _, hk, hlim, h =>
    encode_of_decodeElems_step hk hlim h
      (fun hk' hlim' h' => encode_of_decodeInterface fuel _ _ _ hk' hlim' h')
      (fun hk' hlim' h' => encode_of_decodeElems fuel _ _ _ hk' hlim' h')

end

/-! ## `DecodeBytes` and `EncodeToBytes` -/

/-- `DecodeBytes` gives back an item from what `EncodeToBytes` wrote for it, for every encoding
that a Go byte slice holds and a header can size. -/
theorem decodeBytes_encodeToBytes (t : Item) (h : (encodeToBytes t).length < 2 ^ 64) :
    decodeBytes (encodeToBytes t) = .ok t := by
  rw [encodeToBytes_eq_encode] at h ⊢
  have hat : AtValue (Stream.reset t.encode) t.encode [] :=
    ⟨rfl, rfl, by simp [Stream.reset], ⟨by simp [Stream.reset], by simp [Stream.reset]⟩⟩
  obtain ⟨s', hrun, hreads⟩ := decodeInterface_encode t _ _ [] le_rfl h hat
  -- the whole input was read
  have hempty : s'.input = [] := by
    have := hreads.input
    simpa [Stream.reset] using this
  simp [decodeBytes, hrun, hempty]

/-- What `DecodeBytes` accepts is what `EncodeToBytes` writes for the value it returns. -/
theorem encodeToBytes_of_decodeBytes {b : List UInt8} {v : Item} (h : decodeBytes b = .ok v) :
    encodeToBytes v = b := by
  rw [encodeToBytes_eq_encode]
  unfold decodeBytes at h
  split at h
  next v' s hrun =>
    -- no input is left over
    by_cases hleft : s.input.length > 0
    · simp [hleft] at h
    · simp only [hleft, if_false, Except.ok.injEq] at h
      subst h
      have hin := (encode_of_decodeInterface _ _ _ _ rfl rfl hrun).input
      simp only [Stream.reset] at hin
      rw [hin, List.eq_nil_of_length_eq_zero (by omega : s.input.length = 0), List.append_nil]
  next e s hrun => cases h

/-- RLP is a bijection between item trees and the byte strings `DecodeBytes` accepts: every
item decodes from its encoding, and every accepted string is the encoding of its value. -/
theorem decodeBytes_encodeToBytes_bijection :
    (∀ t : Item, (encodeToBytes t).length < 2 ^ 64 → decodeBytes (encodeToBytes t) = .ok t) ∧
    ∀ (b : List UInt8) (v : Item), decodeBytes b = .ok v → encodeToBytes v = b :=
  ⟨decodeBytes_encodeToBytes, fun _ _ => encodeToBytes_of_decodeBytes⟩

/-- The round trip at a nested list holding a string, a byte and the empty list. -/
theorem decodeBytes_encodeToBytes_bijection_nested :
    (encodeToBytes (.list [.str [1, 2], .str [0x80], .list []])).length < 2 ^ 64 ∧
    decodeBytes (encodeToBytes (.list [.str [1, 2], .str [0x80], .list []])) =
      .ok (.list [.str [1, 2], .str [0x80], .list []]) :=
  ⟨by decide, decodeBytes_encodeToBytes_bijection.1 _ (by decide)⟩

end GoMetadium.Rlp
