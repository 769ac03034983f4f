import GoMetadium.Lib.Rlp
import GoMetadium.Lib.Except

set_option autoImplicit false

/-! # The decoding stream (`rlp/decode.go`)

A `Stream` reads one value at a time from a byte reader. `Kind` reads the header of the next
value and caches its kind and size until the value is consumed; at the end of the innermost
list it returns `EOL` instead. `Bytes` reads a string, `List` enters a list and `ListEnd`
leaves it. Every read goes through `willRead`, which charges the bytes to the innermost
list (`ErrElemTooLarge` past its end) and to the input limit (`ErrValueTooLarge`). The
canonical form is checked in three places: `readKind` refuses a long size below 56,
`readUint` a size with a leading zero byte, and `Bytes` a single byte below `0x80` written
with a string header.

`DecodeBytes(b, &v)` with `v` an empty interface decodes with `decodeInterface`: a string
becomes a `[]byte`, a list a `[]interface{}` of its elements, read until `EOL`. It then
refuses input left over (`ErrMoreThanOneValue`).

The state is passed explicitly (`EStateM`), and like Go's methods the functions keep their
changes to it when they fail. The reader is the list of bytes it has left. `decodeInterface`
recurses once per nested list; the model bounds that recursion by `fuel` (Go has no bound),
and `decodeBytes` passes more than the input can nest.
-/

open Rlp

namespace GoMetadium.Rlp

/-! ## The stream -/

/-- The errors of the stream. -/
inductive StreamError where
  /-- `EOL`: the end of the current list. -/
  | eol
  /-- `ErrExpectedString`. -/
  | expectedString
  /-- `ErrExpectedList`. -/
  | expectedList
  /-- `ErrCanonInt`. -/
  | canonInt
  /-- `ErrCanonSize`. -/
  | canonSize
  /-- `ErrElemTooLarge`. -/
  | elemTooLarge
  /-- `ErrValueTooLarge`. -/
  | valueTooLarge
  /-- `ErrMoreThanOneValue`. -/
  | moreThanOneValue
  /-- `errNotInList`. -/
  | notInList
  /-- `errNotAtEOL`. -/
  | notAtEOL
  /-- `errUintOverflow`. -/
  | uintOverflow
  /-- `io.ErrUnexpectedEOF`. -/
  | unexpectedEOF
  /-- `io.EOF`. -/
  | eof
  /-- `rlp: invalid boolean value: %d`, of `Bool`. -/
  | invalidBool (n : Nat)
  /-- Not Go: the bound on the nesting of lists ran out. -/
  | depth
  deriving DecidableEq, Repr

/-- `listpos`: how much of a list has been read, and its size. -/
structure ListPos where
  pos : Nat
  size : Nat
  deriving DecidableEq, Repr

/-- `Stream`. `input` is what the reader has left; `kind = none` is Go's `-1`, no kind
cached; the stack has the innermost list first. -/
structure Stream where
  input : List UInt8
  remaining : Nat
  limited : Bool
  kind : Option Kind
  size : Nat
  byteval : UInt8
  kinderr : Option StreamError
  stack : List ListPos
  deriving DecidableEq, Repr

/-- The stream's methods pass the stream along and keep their changes when they fail. -/
abbrev StreamM := EStateM StreamError Stream

/-- Go's `x, err := f()`: the error as a value the caller inspects. -/
def attempt {α : Type} (x : StreamM α) : StreamM (Except StreamError α) :=
  tryCatch (Except.ok <$> x) fun e => pure (.error e)

/-- `s.Reset(r, inputLimit)` for a `bytes.Reader` over `b` and the limit `len(b)`: either way
the limit is the length of `b`. -/
def Stream.reset (b : List UInt8) : Stream :=
  ⟨b, b.length, true, none, 0, 0, none, []⟩

/-- `s.willRead(n)`. -/
def willRead (n : Nat) : StreamM Unit := do
  modify fun s => { s with kind := none }
  let s ← get
  match s.stack with
  | tos :: rest =>
    -- check list overflow
    if n > tos.size - tos.pos then throw .elemTooLarge
    set { s with stack := { tos with pos := tos.pos + n } :: rest }
  | [] => pure ()
  let s ← get
  if s.limited then
    if n > s.remaining then throw .valueTooLarge
    set { s with remaining := s.remaining - n }

/-- `s.readByte()`. -/
def readByte : StreamM UInt8 := do
  willRead 1
  let s ← get
  match s.input with
  | b :: rest =>
    set { s with input := rest }
    pure b
  | [] => throw .unexpectedEOF

/-- `s.readFull(buf)` for a buffer of `n` bytes. -/
def readFull (n : Nat) : StreamM (List UInt8) := do
  willRead n
  let s ← get
  if s.input.length < n then
    set { s with input := [] }
    throw .unexpectedEOF
  set { s with input := s.input.drop n }
  pure (s.input.take n)

/-- `s.readUint(size)`, for a size of at most 8 bytes. -/
def readUint (size : Nat) : StreamM Nat :=
  match size with
  | 0 => do
    modify fun s => { s with kind := none }
    pure 0
  | 1 => do
    let b ← readByte
    pure b.toNat
  | size + 2 => do
    let b ← readFull (size + 2)
    -- a leading zero byte
    if b.headD 0 = 0 then throw .canonSize
    pure (bigEndian b)

/-- `s.readKind()`: the kind and size of the next value, and the error of reading them. -/
def readKind : StreamM (Kind × Nat × Option StreamError) := do
  match ← attempt readByte with
  | .error err =>
    let s ← get
    -- at toplevel, adjust the error to actual EOF
    let err := if s.stack = [] ∧ (err = .unexpectedEOF ∨ err = .valueTooLarge) then .eof else err
    pure (.byte, 0, some err)
  | .ok b =>
    modify fun s => { s with byteval := 0 }
    if b < 0x80 then
      -- a single byte below `0x80` is its own encoding
      modify fun s => { s with byteval := b }
      pure (.byte, 0, none)
    else if b < 0xB8 then pure (.string, (b - 0x80).toNat, none)
    else if b < 0xC0 then
      match ← attempt (readUint (b - 0xB7).toNat) with
      | .error e => pure (.string, 0, some e)
      | .ok size => pure (.string, size, if size < 56 then some .canonSize else none)
    else if b < 0xF8 then pure (.list, (b - 0xC0).toNat, none)
    else
      match ← attempt (readUint (b - 0xF7).toNat) with
      | .error e => pure (.list, 0, some e)
      | .ok size => pure (.list, size, if size < 56 then some .canonSize else none)

/-- The check `Kind` makes of the size of a value it read: at toplevel the value must fit
the input left, inside a list it must fit the list. -/
def sizeCheck (s : Stream) (size : Nat) : Option StreamError :=
  match s.stack with
  | [] => if s.limited ∧ size > s.remaining then some .valueTooLarge else none
  | tos :: _ => if size > tos.size - tos.pos then some .elemTooLarge else none

/-- `s.Kind()`: the kind and size of the next value, read once and then cached. -/
def kind : StreamM (Kind × Nat) := do
  let s ← get
  if s.kind = none then
    set { s with kinderr := none }
    -- don't read further at the end of the innermost list
    match s.stack with
    | tos :: _ => if tos.pos = tos.size then throw .eol
    | [] => pure ()
    let (k, size, err) ← readKind
    let s ← get
    let err := match err with
      | some e => some e
      | none => sizeCheck s size
    set { s with kind := some k, size := size, kinderr := err }
  let s ← get
  match s.kinderr with
  | some e => throw e
  | none => pure (s.kind.getD .byte, s.size)

/-- `s.Bytes()`. -/
def bytes : StreamM (List UInt8) := do
  let (k, size) ← kind
  match k with
  | .byte =>
    modify fun s => { s with kind := none }
    pure [(← get).byteval]
  | .string =>
    let b ← readFull size
    if size = 1 ∧ b.headD 0 < 128 then throw .canonSize
    pure b
  | .list => throw .expectedString

/-- `s.List()`. -/
def list : StreamM Nat := do
  let (k, size) ← kind
  if k ≠ .list then throw .expectedList
  modify fun s => { s with stack := ⟨0, size⟩ :: s.stack, kind := none, size := 0 }
  pure size

/-- `s.ListEnd()`. -/
def listEnd : StreamM Unit := do
  let s ← get
  match s.stack with
  | [] => throw .notInList
  | tos :: rest =>
    if tos.pos ≠ tos.size then throw .notAtEOL
    -- the list counts as read in the enclosing one
    let rest := match rest with
      | p :: ps => { p with pos := p.pos + tos.size } :: ps
      | [] => []
    set { s with stack := rest, kind := none, size := 0 }

/-! ## Decoding into an empty interface -/

mutual

/-- `decodeInterface(s, val)` with the bound `fuel` on the nesting of lists. -/
def decodeInterface : Nat → StreamM Item
  | 0 => throw .depth
  | fuel + 1 => do
    let (k, _) ← kind
    if k = .list then
      let _ ← list
      let items ← decodeElems fuel
      listEnd
      pure (.list items)
    else
      let b ← bytes
      pure (.str b)

/-- The loop of `decodeInterface` over the elements of a list, until `EOL`. -/
def decodeElems : Nat → StreamM (List Item)
  | 0 => throw .depth
  | fuel + 1 => do
    match ← attempt (decodeInterface fuel) with
    | .error .eol => pure []
    | .error e => throw e
    | .ok v =>
      let vs ← decodeElems fuel
      pure (v :: vs)

end

/-- `DecodeBytes(b, &v)` with `v` an empty interface. -/
def decodeBytes (b : List UInt8) : Except StreamError Item :=
  match (decodeInterface (2 * b.length + 1)).run (Stream.reset b) with
  | .ok v s => if s.input.length > 0 then .error .moreThanOneValue else .ok v
  | .error e _ => .error e

/-! ## Reading within bounds -/

/-- The innermost list with `n` more of its bytes read. -/
def bumpTop : List ListPos → Nat → List ListPos
  | [], _ => []
  | tos :: rest, n => { tos with pos := tos.pos + n } :: rest

@[simp] theorem bumpTop_nil (n : Nat) : bumpTop [] n = [] := rfl
@[simp] theorem bumpTop_cons (tos : ListPos) (rest : List ListPos) (n : Nat) :
    bumpTop (tos :: rest) n = { tos with pos := tos.pos + n } :: rest := rfl

@[simp] theorem bumpTop_zero (st : List ListPos) : bumpTop st 0 = st := by
  cases st <;> rfl

/-- `n` more bytes fit the input limit and the innermost list. -/
def Fits (s : Stream) (n : Nat) : Prop :=
  n ≤ s.remaining ∧ ∀ tos rest, s.stack = tos :: rest → n ≤ tos.size - tos.pos

/-- The stream after `willRead n`: the bytes charged to the limit and the innermost list. -/
def Stream.charge (s : Stream) (n : Nat) : Stream :=
  { s with kind := none, remaining := s.remaining - n, stack := bumpTop s.stack n }

@[simp] theorem charge_input (s : Stream) (n : Nat) : (s.charge n).input = s.input := rfl
@[simp] theorem charge_remaining (s : Stream) (n : Nat) :
    (s.charge n).remaining = s.remaining - n := rfl
@[simp] theorem charge_limited (s : Stream) (n : Nat) : (s.charge n).limited = s.limited := rfl
@[simp] theorem charge_kind (s : Stream) (n : Nat) : (s.charge n).kind = none := rfl
@[simp] theorem charge_size (s : Stream) (n : Nat) : (s.charge n).size = s.size := rfl
@[simp] theorem charge_byteval (s : Stream) (n : Nat) : (s.charge n).byteval = s.byteval := rfl
@[simp] theorem charge_kinderr (s : Stream) (n : Nat) : (s.charge n).kinderr = s.kinderr := rfl
@[simp] theorem charge_stack (s : Stream) (n : Nat) : (s.charge n).stack = bumpTop s.stack n := rfl

/-- The stream after `willRead n` and the read of `n` bytes. -/
def Stream.skip (s : Stream) (n : Nat) : Stream :=
  { s.charge n with input := s.input.drop n }

@[simp] theorem skip_input (s : Stream) (n : Nat) : (s.skip n).input = s.input.drop n := rfl
@[simp] theorem skip_remaining (s : Stream) (n : Nat) : (s.skip n).remaining = s.remaining - n := rfl
@[simp] theorem skip_limited (s : Stream) (n : Nat) : (s.skip n).limited = s.limited := rfl
@[simp] theorem skip_kind (s : Stream) (n : Nat) : (s.skip n).kind = none := rfl
@[simp] theorem skip_size (s : Stream) (n : Nat) : (s.skip n).size = s.size := rfl
@[simp] theorem skip_byteval (s : Stream) (n : Nat) : (s.skip n).byteval = s.byteval := rfl
@[simp] theorem skip_kinderr (s : Stream) (n : Nat) : (s.skip n).kinderr = s.kinderr := rfl
@[simp] theorem skip_stack (s : Stream) (n : Nat) : (s.skip n).stack = bumpTop s.stack n := rfl

theorem bumpTop_bumpTop (st : List ListPos) (m n : Nat) :
    bumpTop (bumpTop st m) n = bumpTop st (m + n) := by
  cases st with
  | nil => rfl
  | cons tos rest => simp [bumpTop, Nat.add_assoc]

/-- What fits after `m` bytes are read is what fitted, less `m`. -/
theorem fits_skip {s : Stream} {m n : Nat} (h : Fits s (m + n)) : Fits (s.skip m) n := by
  refine ⟨by have := h.1; simp; omega, ?_⟩
  intro tos rest hst
  cases hs : s.stack with
  | nil => simp [hs, bumpTop] at hst
  | cons tos' rest' =>
    simp only [skip_stack, hs, bumpTop, List.cons.injEq] at hst
    obtain ⟨rfl, rfl⟩ := hst
    have := h.2 tos' rest' hs
    simp only
    omega

theorem fits_mono {s : Stream} {m n : Nat} (h : Fits s n) (hmn : m ≤ n) : Fits s m :=
  ⟨by have := h.1; omega, fun tos rest hst => by have := h.2 tos rest hst; omega⟩

theorem willRead_ok {s : Stream} {n : Nat} (hlim : s.limited = true) (h : Fits s n) :
    (willRead n).run s = .ok () (s.charge n) := by
  have hrem : ¬ n > s.remaining := by have := h.1; omega
  unfold willRead
  cases hst : s.stack with
  | nil =>
    simp [EStateM.run_bind, EStateM.run_modify, EStateM.run_get, hst, hlim, hrem,
      EStateM.run_set, Stream.charge, bumpTop]
  | cons tos rest =>
    have htos : ¬ n > tos.size - tos.pos := by have := h.2 tos rest hst; omega
    simp [EStateM.run_bind, EStateM.run_modify, EStateM.run_get, hst, hlim, hrem, htos,
      EStateM.run_set, Stream.charge, bumpTop]

/-- A successful `willRead` charged the bytes: it has no other effect. -/
theorem willRead_inv {s s' : Stream} {n : Nat} {u : Unit} (hlim : s.limited = true)
    (h : (willRead n).run s = .ok u s') : s' = s.charge n := by
  unfold willRead at h
  cases hst : s.stack with
  | nil =>
    by_cases hrem : n > s.remaining
    · simp [EStateM.run_bind, EStateM.run_modify, EStateM.run_get, hst, hlim, hrem] at h
    · simp [EStateM.run_bind, EStateM.run_modify, EStateM.run_get, hst, hlim, hrem,
        EStateM.run_set] at h
      simp [← h, Stream.charge, hst, bumpTop, hlim]
  | cons tos rest =>
    by_cases htos : n > tos.size - tos.pos
    · simp [EStateM.run_bind, EStateM.run_modify, EStateM.run_get, hst, htos] at h
    by_cases hrem : n > s.remaining
    · simp [EStateM.run_bind, EStateM.run_modify, EStateM.run_get, hst, hlim, hrem, htos,
        EStateM.run_set] at h
    · simp [EStateM.run_bind, EStateM.run_modify, EStateM.run_get, hst, hlim, hrem, htos,
        EStateM.run_set] at h
      simp [← h, Stream.charge, hst, bumpTop, hlim]

theorem readByte_ok {s : Stream} {x : UInt8} {xs : List UInt8} (hlim : s.limited = true)
    (h : Fits s 1) (hin : s.input = x :: xs) : readByte.run s = .ok x (s.skip 1) := by
  unfold readByte
  simp [EStateM.run_bind, willRead_ok hlim h, EStateM.run_get, hin, EStateM.run_set, Stream.skip]

theorem readByte_inv {s s' : Stream} {b : UInt8} (hlim : s.limited = true)
    (h : readByte.run s = .ok b s') : ∃ xs, s.input = b :: xs ∧ s' = s.skip 1 := by
  obtain ⟨u, s₁, hw, h⟩ := EStateM.run_bind_eq_ok.mp h
  rw [willRead_inv hlim hw] at h
  cases hin : s.input with
  | nil => simp [EStateM.run_bind, EStateM.run_get, hin] at h
  | cons x xs =>
    simp [EStateM.run_bind, EStateM.run_get, hin, EStateM.run_set] at h
    exact ⟨xs, by rw [h.1], by simp [← h.2, Stream.skip, hin]⟩

theorem readFull_ok {s : Stream} {n : Nat} (hlim : s.limited = true) (h : Fits s n)
    (hn : n ≤ s.input.length) : (readFull n).run s = .ok (s.input.take n) (s.skip n) := by
  have hlt : ¬ s.input.length < n := by omega
  unfold readFull
  simp [EStateM.run_bind, willRead_ok hlim h, EStateM.run_get, hlt, EStateM.run_set, Stream.skip]

theorem readFull_inv {s s' : Stream} {n : Nat} {w : List UInt8} (hlim : s.limited = true)
    (h : (readFull n).run s = .ok w s') :
    w = s.input.take n ∧ n ≤ s.input.length ∧ s' = s.skip n := by
  obtain ⟨u, s₁, hw, h⟩ := EStateM.run_bind_eq_ok.mp h
  rw [willRead_inv hlim hw] at h
  by_cases hlt : s.input.length < n
  · simp [EStateM.run_bind, EStateM.run_get, hlt, EStateM.run_set] at h
  · simp [EStateM.run_bind, EStateM.run_get, hlt, EStateM.run_set] at h
    exact ⟨h.1.symm, by omega, by simp [← h.2, Stream.skip]⟩

theorem attempt_run {α : Type} (x : StreamM α) (s : Stream) :
    (attempt x).run s = match x.run s with
      | .ok a s' => .ok (.ok a) s'
      | .error e s' => .ok (.error e) s' := by
  unfold attempt
  rw [EStateM.run_tryCatch, EStateM.run_map]
  cases x.run s <;> rfl

/-! ## What a read fails with -/

theorem willRead_error {s s' : Stream} {n : Nat} {e : StreamError}
    (h : (willRead n).run s = .error e s') : e = .elemTooLarge ∨ e = .valueTooLarge := by
  unfold willRead at h
  cases hst : s.stack with
  | nil =>
    by_cases hlim : s.limited = true
    · by_cases hrem : n > s.remaining
      · simp [EStateM.run_bind, EStateM.run_modify, EStateM.run_get, hst, hlim, hrem] at h
        simp [← h]
      · simp [EStateM.run_bind, EStateM.run_modify, EStateM.run_get, hst, hlim, hrem,
          EStateM.run_set] at h
    · simp [EStateM.run_bind, EStateM.run_modify, EStateM.run_get, hst, hlim] at h
  | cons tos rest =>
    by_cases htos : n > tos.size - tos.pos
    · simp [EStateM.run_bind, EStateM.run_modify, EStateM.run_get, hst, htos] at h
      simp [← h]
    by_cases hlim : s.limited = true
    · by_cases hrem : n > s.remaining
      · simp [EStateM.run_bind, EStateM.run_modify, EStateM.run_get, hst, hlim, hrem, htos,
          EStateM.run_set] at h
        simp [← h]
      · simp [EStateM.run_bind, EStateM.run_modify, EStateM.run_get, hst, hlim, hrem, htos,
          EStateM.run_set] at h
    · simp [EStateM.run_bind, EStateM.run_modify, EStateM.run_get, hst, hlim, htos,
        EStateM.run_set] at h

theorem readByte_error {s s' : Stream} {e : StreamError} (h : readByte.run s = .error e s') :
    e = .elemTooLarge ∨ e = .valueTooLarge ∨ e = .unexpectedEOF := by
  rcases EStateM.run_bind_eq_error.mp h with hw | ⟨u, s₁, -, h⟩
  · rcases willRead_error hw with rfl | rfl <;> simp
  · cases hin : s₁.input with
    | nil =>
      simp [EStateM.run_bind, EStateM.run_get, hin] at h
      simp [← h]
    | cons x xs => simp [EStateM.run_bind, EStateM.run_get, hin, EStateM.run_set] at h

theorem readFull_error {s s' : Stream} {n : Nat} {e : StreamError}
    (h : (readFull n).run s = .error e s') :
    e = .elemTooLarge ∨ e = .valueTooLarge ∨ e = .unexpectedEOF := by
  rcases EStateM.run_bind_eq_error.mp h with hw | ⟨u, s₁, -, h⟩
  · rcases willRead_error hw with rfl | rfl <;> simp
  · by_cases hlt : s₁.input.length < n
    · simp [EStateM.run_bind, EStateM.run_get, hlt, EStateM.run_set] at h
      simp [← h]
    · simp [EStateM.run_bind, EStateM.run_get, hlt, EStateM.run_set] at h

theorem readUint_error {s s' : Stream} {L : Nat} {e : StreamError}
    (h : (readUint L).run s = .error e s') :
    e = .elemTooLarge ∨ e = .valueTooLarge ∨ e = .unexpectedEOF ∨ e = .canonSize := by
  match L with
  | 0 => simp [readUint, EStateM.run_modify] at h
  | 1 =>
    rcases EStateM.run_bind_eq_error.mp h with hb | ⟨b, s₁, -, h⟩
    · rcases readByte_error hb with rfl | rfl | rfl <;> simp
    · simp at h
  | k + 2 =>
    rcases EStateM.run_bind_eq_error.mp h with hb | ⟨b, s₁, -, h⟩
    · rcases readFull_error hb with rfl | rfl | rfl <;> simp
    · by_cases hz : b.headD 0 = 0
      · simp only [hz, if_true] at h
        cases h
        simp
      · simp only [hz, if_false] at h
        cases h

/-! ## Sizes -/

theorem length_putint_eq_one {n : Nat} (h : (putint n).length = 1) : n < 256 := by
  by_contra hn
  rw [putint_of_le (by omega), List.length_append, List.length_singleton] at h
  have := List.length_pos_of_ne_nil (putint_ne_nil (n / 256))
  omega

/-- `readUint` reads back a long size the encoder wrote. -/
theorem readUint_putint {s : Stream} {n : Nat} {rest : List UInt8} (hn : 56 ≤ n)
    (hlim : s.limited = true) (h : Fits s (putint n).length) (hin : s.input = putint n ++ rest) :
    (readUint (putint n).length).run s = .ok n (s.skip (putint n).length) := by
  have hpos := List.length_pos_of_ne_nil (putint_ne_nil n)
  by_cases h1 : (putint n).length = 1
  · -- one byte of size: the byte is the size
    have hlt := length_putint_eq_one h1
    rw [putint_of_lt hlt] at hin
    rw [h1] at h ⊢
    simp [readUint, readByte_ok hlim h hin, toNat_ofNat_of_lt hlt]
  · -- several bytes: read them whole and refuse a leading zero
    obtain ⟨k, hk⟩ : ∃ k, (putint n).length = k + 2 := ⟨(putint n).length - 2, by omega⟩
    have hlen : k + 2 ≤ s.input.length := by simp [hin]; omega
    have htake : s.input.take (k + 2) = putint n := by rw [hin, ← hk, List.take_left]
    have hhead := putint_headD_ne_zero (show 0 < n by omega)
    rw [hk] at h ⊢
    simp only [readUint, EStateM.run_bind, readFull_ok hlim h hlen, htake, if_neg hhead]
    simp [bigEndian_putint]

/-- What `readUint` read from at least one byte is the number's minimal encoding: the
leading-zero check of several bytes, and the number itself for one byte. -/
theorem readUint_inv {s s' : Stream} {L n : Nat} (hlim : s.limited = true) (hL : 1 ≤ L)
    (h : (readUint L).run s = .ok n s') :
    s.input = putint n ++ s'.input ∧ (putint n).length = L ∧ s' = s.skip L := by
  by_cases h1 : L = 1
  · -- one byte of size
    subst h1
    obtain ⟨b, s₁, hb, h⟩ := EStateM.run_bind_eq_ok.mp h
    obtain ⟨xs, hin, rfl⟩ := readByte_inv hlim hb
    simp only [EStateM.run_pure, EStateM.Result.ok.injEq] at h
    obtain ⟨rfl, rfl⟩ := h
    have hput : putint b.toNat = [b] := by rw [putint_of_lt b.toNat_lt, UInt8.ofNat_toNat]
    simp [hput, hin]
  · -- several bytes, the first not zero
    obtain ⟨k, rfl⟩ : ∃ k, L = k + 2 := ⟨L - 2, by omega⟩
    obtain ⟨w, s₁, hw, h⟩ := EStateM.run_bind_eq_ok.mp h
    obtain ⟨rfl, hlen, rfl⟩ := readFull_inv hlim hw
    by_cases hz : (s.input.take (k + 2)).headD 0 = 0
    · simp only [hz, if_true] at h
      cases h
    · simp only [hz, if_false, EStateM.run_pure, EStateM.Result.ok.injEq] at h
      obtain ⟨rfl, rfl⟩ := h
      obtain ⟨x, xs, hxs⟩ := List.exists_cons_of_ne_nil
        (show s.input.take (k + 2) ≠ [] by intro h0; simp [h0] at hz)
      have hx : x ≠ 0 := by simpa [hxs] using hz
      have hput : putint (bigEndian (s.input.take (k + 2))) = s.input.take (k + 2) := by
        rw [hxs]
        exact putint_bigEndian_cons hx xs
      rw [hput]
      exact ⟨(List.take_append_drop _ _).symm, by simp; omega, rfl⟩

/-! ## Reading a header

`readKind` is five branches on the first byte; a lemma for each says what the branch
returns, for any input. -/

/-- A header byte `t + x`, less its tag `t`. -/
theorem tag_sub_toNat {b t : UInt8} {x : Nat} (hb : b.toNat = t.toNat + x) : (b - t).toNat = x := by
  rw [UInt8.toNat_sub_of_le _ _ (by rw [UInt8.le_iff_toNat_le, hb]; omega), hb]
  omega

section ReadKind

variable {s s₁ : Stream} {b : UInt8}

theorem readKind_error {err : StreamError} (hr : readByte.run s = .error err s₁) :
    readKind.run s = .ok (.byte, 0, some (if s₁.stack = [] ∧ (err = .unexpectedEOF ∨ err = .valueTooLarge)
      then .eof else err)) s₁ := by
  simp [readKind, EStateM.run_bind, attempt_run, hr]

theorem readKind_byte (hr : readByte.run s = .ok b s₁) (hb : b.toNat < 0x80) :
    readKind.run s = .ok (.byte, 0, none) { s₁ with byteval := b } := by
  have h₀ : b < 0x80 := UInt8.lt_iff_toNat_lt.mpr hb
  simp [readKind, EStateM.run_bind, attempt_run, hr, h₀, EStateM.run_modify]

theorem readKind_shortString (hr : readByte.run s = .ok b s₁) (h₁ : 0x80 ≤ b.toNat)
    (h₂ : b.toNat < 0xB8) :
    readKind.run s = .ok (.string, b.toNat - 0x80, none) { s₁ with byteval := 0 } := by
  have h₀ : ¬ b < 0x80 := by rw [UInt8.lt_iff_toNat_lt]; simp only [UInt8.reduceToNat]; omega
  have h₃ : b < 0xB8 := by rw [UInt8.lt_iff_toNat_lt]; simp only [UInt8.reduceToNat]; omega
  have h₄ : (b - 0x80).toNat = b.toNat - 0x80 := tag_sub_toNat (by simp only [UInt8.reduceToNat]; omega)
  simp [readKind, EStateM.run_bind, attempt_run, hr, h₀, h₃, h₄, EStateM.run_modify]

theorem readKind_longString (hr : readByte.run s = .ok b s₁) (h₁ : 0xB8 ≤ b.toNat)
    (h₂ : b.toNat < 0xC0) :
    readKind.run s = match (readUint (b.toNat - 0xB7)).run { s₁ with byteval := 0 } with
      | .ok size s₂ => .ok (.string, size, if size < 56 then some .canonSize else none) s₂
      | .error e s₂ => .ok (.string, 0, some e) s₂ := by
  have h₀ : ¬ b < 0x80 := by rw [UInt8.lt_iff_toNat_lt]; simp only [UInt8.reduceToNat]; omega
  have h₃ : ¬ b < 0xB8 := by rw [UInt8.lt_iff_toNat_lt]; simp only [UInt8.reduceToNat]; omega
  have h₄ : b < 0xC0 := by rw [UInt8.lt_iff_toNat_lt]; simp only [UInt8.reduceToNat]; omega
  have h₅ : (b - 0xB7).toNat = b.toNat - 0xB7 := tag_sub_toNat (by simp only [UInt8.reduceToNat]; omega)
  simp only [readKind, EStateM.run_bind, attempt_run, hr, h₀, h₃, h₄, h₅, EStateM.run_modify,
    if_false, if_true]
  cases (readUint (b.toNat - 0xB7)).run { s₁ with byteval := 0 } <;> rfl

theorem readKind_shortList (hr : readByte.run s = .ok b s₁) (h₁ : 0xC0 ≤ b.toNat)
    (h₂ : b.toNat < 0xF8) :
    readKind.run s = .ok (.list, b.toNat - 0xC0, none) { s₁ with byteval := 0 } := by
  have h₀ : ¬ b < 0x80 := by rw [UInt8.lt_iff_toNat_lt]; simp only [UInt8.reduceToNat]; omega
  have h₃ : ¬ b < 0xB8 := by rw [UInt8.lt_iff_toNat_lt]; simp only [UInt8.reduceToNat]; omega
  have h₄ : ¬ b < 0xC0 := by rw [UInt8.lt_iff_toNat_lt]; simp only [UInt8.reduceToNat]; omega
  have h₅ : b < 0xF8 := by rw [UInt8.lt_iff_toNat_lt]; simp only [UInt8.reduceToNat]; omega
  have h₆ : (b - 0xC0).toNat = b.toNat - 0xC0 := tag_sub_toNat (by simp only [UInt8.reduceToNat]; omega)
  simp [readKind, EStateM.run_bind, attempt_run, hr, h₀, h₃, h₄, h₅, h₆, EStateM.run_modify]

theorem readKind_longList (hr : readByte.run s = .ok b s₁) (h₁ : 0xF8 ≤ b.toNat) :
    readKind.run s = match (readUint (b.toNat - 0xF7)).run { s₁ with byteval := 0 } with
      | .ok size s₂ => .ok (.list, size, if size < 56 then some .canonSize else none) s₂
      | .error e s₂ => .ok (.list, 0, some e) s₂ := by
  have h₀ : ¬ b < 0x80 := by rw [UInt8.lt_iff_toNat_lt]; simp only [UInt8.reduceToNat]; omega
  have h₃ : ¬ b < 0xB8 := by rw [UInt8.lt_iff_toNat_lt]; simp only [UInt8.reduceToNat]; omega
  have h₄ : ¬ b < 0xC0 := by rw [UInt8.lt_iff_toNat_lt]; simp only [UInt8.reduceToNat]; omega
  have h₅ : ¬ b < 0xF8 := by rw [UInt8.lt_iff_toNat_lt]; simp only [UInt8.reduceToNat]; omega
  have h₆ : (b - 0xF7).toNat = b.toNat - 0xF7 := tag_sub_toNat (by simp only [UInt8.reduceToNat]; omega)
  simp only [readKind, EStateM.run_bind, attempt_run, hr, h₀, h₃, h₄, h₅, h₆, EStateM.run_modify,
    if_false]
  cases (readUint (b.toNat - 0xF7)).run { s₁ with byteval := 0 } <;> rfl

end ReadKind

/-- `readKind` never fails: it returns the error of the read with the kind, and that error
is never `EOL`. -/
theorem readKind_ok (s : Stream) :
    ∃ k n err s', readKind.run s = .ok (k, n, err) s' ∧ err ≠ some .eol := by
  rcases hr : readByte.run s with ⟨b, s₁⟩ | ⟨err, s₁⟩
  · by_cases h80 : b.toNat < 0x80
    · exact ⟨_, _, _, _, readKind_byte hr h80, by simp⟩
    by_cases hB8 : b.toNat < 0xB8
    · exact ⟨_, _, _, _, readKind_shortString hr (by omega) hB8, by simp⟩
    by_cases hC0 : b.toNat < 0xC0
    · rw [readKind_longString hr (by omega) hC0]
      split
      next n s₂ hu => exact ⟨_, _, _, _, rfl, by split <;> simp⟩
      next e s₂ hu =>
        refine ⟨_, _, _, _, rfl, ?_⟩
        rcases readUint_error hu with rfl | rfl | rfl | rfl <;> simp
    by_cases hF8 : b.toNat < 0xF8
    · exact ⟨_, _, _, _, readKind_shortList hr (by omega) hF8, by simp⟩
    · rw [readKind_longList hr (by omega)]
      split
      next n s₂ hu => exact ⟨_, _, _, _, rfl, by split <;> simp⟩
      next e s₂ hu =>
        refine ⟨_, _, _, _, rfl, ?_⟩
        rcases readUint_error hu with rfl | rfl | rfl | rfl <;> simp
  · refine ⟨_, _, _, _, readKind_error hr, ?_⟩
    rcases readByte_error hr with rfl | rfl | rfl <;> split <;> simp

/-- `hd` is a header `readKind` accepts for a value of kind `k` and `size` bytes, keeping the
byte `bv`: a byte below `0x80` is its own header, of size zero; the others are what the
encoder's `puthead` writes. -/
inductive HeadOf : Kind → Nat → UInt8 → List UInt8 → Prop
  | byte {b : UInt8} (h : b < 0x80) : HeadOf .byte 0 b [b]
  | string {n : Nat} (h : n < 2 ^ 64) : HeadOf .string n 0 (puthead 0x80 0xB7 n)
  | list {n : Nat} (h : n < 2 ^ 64) : HeadOf .list n 0 (puthead 0xC0 0xF7 n)

/-- `readKind` reads a header that fits. -/
theorem readKind_of_head {s : Stream} {k : Kind} {size : Nat} {bv : UInt8} {hd rest : List UInt8}
    (hh : HeadOf k size bv hd) (hlim : s.limited = true) (hfit : Fits s hd.length)
    (hin : s.input = hd ++ rest) :
    readKind.run s = .ok (k, size, none) { s.skip hd.length with byteval := bv } := by
  cases hh with
  | byte h =>
    rw [readKind_byte (readByte_ok hlim hfit hin) (UInt8.lt_iff_toNat_lt.mp h)]
    rfl
  | string hn =>
    unfold puthead at hfit hin ⊢
    by_cases hs : size < 56
    · rw [if_pos hs] at hfit hin ⊢
      have hb : ((0x80 : UInt8) + UInt8.ofNat size).toNat = 128 + size :=
        toNat_tag (by simp only [UInt8.reduceToNat]; omega)
      rw [readKind_shortString (readByte_ok hlim hfit hin) (by omega) (by omega), hb,
        show 128 + size - 0x80 = size by omega]
      rfl
    · rw [if_neg hs] at hfit hin ⊢
      obtain ⟨hL₁, hL₈⟩ := length_putint_bounds hn
      have hb : ((0xB7 : UInt8) + UInt8.ofNat (putint size).length).toNat =
          183 + (putint size).length := toNat_tag (by simp only [UInt8.reduceToNat]; omega)
      rw [readKind_longString (readByte_ok hlim (fits_mono hfit (by simp)) hin) (by omega) (by omega),
        hb, show 183 + (putint size).length - 0xB7 = (putint size).length by omega,
        @readUint_putint _ size rest (by omega) ?_ ?_ ?_]
      · simp [hs, Stream.skip, Stream.charge, bumpTop_bumpTop, Nat.sub_sub, Nat.add_comm]
      · simpa using hlim
      · exact fits_skip (by simpa [Nat.add_comm] using hfit)
      · simp [hin]
  | list hn =>
    unfold puthead at hfit hin ⊢
    by_cases hs : size < 56
    · rw [if_pos hs] at hfit hin ⊢
      have hb : ((0xC0 : UInt8) + UInt8.ofNat size).toNat = 192 + size :=
        toNat_tag (by simp only [UInt8.reduceToNat]; omega)
      rw [readKind_shortList (readByte_ok hlim hfit hin) (by omega) (by omega), hb,
        show 192 + size - 0xC0 = size by omega]
      rfl
    · rw [if_neg hs] at hfit hin ⊢
      obtain ⟨hL₁, hL₈⟩ := length_putint_bounds hn
      have hb : ((0xF7 : UInt8) + UInt8.ofNat (putint size).length).toNat =
          247 + (putint size).length := toNat_tag (by simp only [UInt8.reduceToNat]; omega)
      rw [readKind_longList (readByte_ok hlim (fits_mono hfit (by simp)) hin) (by omega),
        hb, show 247 + (putint size).length - 0xF7 = (putint size).length by omega,
        @readUint_putint _ size rest (by omega) ?_ ?_ ?_]
      · simp [hs, Stream.skip, Stream.charge, bumpTop_bumpTop, Nat.sub_sub, Nat.add_comm]
      · simpa using hlim
      · exact fits_skip (by simpa [Nat.add_comm] using hfit)
      · simp [hin]

/-- What `readKind` read without an error is a header it accepts, and it read nothing else:
the canonical checks of `readKind` and `readUint` leave only the encoder's headers. -/
theorem head_of_readKind {s s' : Stream} {k : Kind} {size : Nat} (hlim : s.limited = true)
    (h : readKind.run s = .ok (k, size, none) s') :
    ∃ hd bv, HeadOf k size bv hd ∧ s.input = hd ++ s'.input ∧
      s' = { s.skip hd.length with byteval := bv } := by
  rcases hr : readByte.run s with ⟨b, s₁⟩ | ⟨err, s₁⟩
  · obtain ⟨xs, hin, rfl⟩ := readByte_inv hlim hr
    by_cases h80 : b.toNat < 0x80
    · -- a byte below 0x80 is its own header
      rw [readKind_byte hr h80] at h
      simp only [EStateM.Result.ok.injEq, Prod.mk.injEq] at h
      obtain ⟨⟨rfl, rfl, -⟩, rfl⟩ := h
      exact ⟨[b], b, .byte (UInt8.lt_iff_toNat_lt.mpr h80), by simp [hin], rfl⟩
    by_cases hB8 : b.toNat < 0xB8
    · rw [readKind_shortString hr (by omega) hB8] at h
      simp only [EStateM.Result.ok.injEq, Prod.mk.injEq] at h
      obtain ⟨⟨rfl, rfl, -⟩, rfl⟩ := h
      have hs : b.toNat - 0x80 < 56 := by omega
      have hb : b = 0x80 + UInt8.ofNat (b.toNat - 0x80) := eq_tag (by simp only [UInt8.reduceToNat]; omega)
      refine ⟨puthead 0x80 0xB7 (b.toNat - 0x80), 0, .string (by omega), ?_, ?_⟩
      · rw [puthead, if_pos hs, ← hb]
        simp [hin]
      · rw [puthead, if_pos hs]
        rfl
    by_cases hC0 : b.toNat < 0xC0
    · rw [readKind_longString hr (by omega) hC0] at h
      split at h
      next n s₂ hu =>
        simp only [EStateM.Result.ok.injEq, Prod.mk.injEq] at h
        obtain ⟨⟨rfl, rfl, hcanon⟩, rfl⟩ := h
        have hn : 56 ≤ n := by
          by_contra hlt
          simp [hlt] at hcanon
        obtain ⟨hin', hlen, rfl⟩ := readUint_inv (by simpa using hlim) (by omega) hu
        have hb : b = 0xB7 + UInt8.ofNat (putint n).length :=
          eq_tag (by simp only [UInt8.reduceToNat]; omega)
        refine ⟨puthead 0x80 0xB7 n, 0, .string (lt_of_length_putint_le (by omega)), ?_, ?_⟩
        · rw [puthead, if_neg (by omega), ← hb]
          simp only [skip_input, hin, List.drop_succ_cons, List.drop_zero] at hin'
          simp [hin]
          exact hin'
        · rw [puthead, if_neg (by omega)]
          simp [Stream.skip, Stream.charge, bumpTop_bumpTop, Nat.sub_sub, Nat.add_comm, hlen]
      next e s₂ hu => simp at h
    by_cases hF8 : b.toNat < 0xF8
    · rw [readKind_shortList hr (by omega) hF8] at h
      simp only [EStateM.Result.ok.injEq, Prod.mk.injEq] at h
      obtain ⟨⟨rfl, rfl, -⟩, rfl⟩ := h
      have hs : b.toNat - 0xC0 < 56 := by omega
      have hb : b = 0xC0 + UInt8.ofNat (b.toNat - 0xC0) := eq_tag (by simp only [UInt8.reduceToNat]; omega)
      refine ⟨puthead 0xC0 0xF7 (b.toNat - 0xC0), 0, .list (by omega), ?_, ?_⟩
      · rw [puthead, if_pos hs, ← hb]
        simp [hin]
      · rw [puthead, if_pos hs]
        rfl
    · rw [readKind_longList hr (by omega)] at h
      split at h
      next n s₂ hu =>
        simp only [EStateM.Result.ok.injEq, Prod.mk.injEq] at h
        obtain ⟨⟨rfl, rfl, hcanon⟩, rfl⟩ := h
        have hn : 56 ≤ n := by
          by_contra hlt
          simp [hlt] at hcanon
        have hb256 := b.toNat_lt
        obtain ⟨hin', hlen, rfl⟩ := readUint_inv (by simpa using hlim) (by omega) hu
        have hb : b = 0xF7 + UInt8.ofNat (putint n).length :=
          eq_tag (by simp only [UInt8.reduceToNat]; omega)
        refine ⟨puthead 0xC0 0xF7 n, 0, .list (lt_of_length_putint_le (by omega)), ?_, ?_⟩
        · rw [puthead, if_neg (by omega), ← hb]
          simp only [skip_input, hin, List.drop_succ_cons, List.drop_zero] at hin'
          simp [hin]
          exact hin'
        · rw [puthead, if_neg (by omega)]
          simp [Stream.skip, Stream.charge, bumpTop_bumpTop, Nat.sub_sub, Nat.add_comm, hlen]
      next e s₂ hu => simp at h
  · rw [readKind_error hr] at h
    simp at h

theorem HeadOf.length_pos {k : Kind} {size : Nat} {bv : UInt8} {hd : List UInt8}
    (hh : HeadOf k size bv hd) : 0 < hd.length := by
  cases hh with
  | byte h => simp
  | string hn => unfold puthead; split <;> simp
  | list hn => unfold puthead; split <;> simp

/-! ## `Kind`, `Bytes`, `List` and `ListEnd` -/

/-- The stream after `Kind` read a header of `h` bytes: the kind and size of the value cached. -/
def Stream.afterHead (s : Stream) (h : Nat) (k : Kind) (size : Nat) (bv : UInt8) : Stream :=
  { s.skip h with kind := some k, size := size, byteval := bv, kinderr := none }

section AfterHead

variable (s : Stream) (h : Nat) (k : Kind) (size : Nat) (bv : UInt8)

@[simp] theorem afterHead_input : (s.afterHead h k size bv).input = s.input.drop h := rfl
@[simp] theorem afterHead_remaining : (s.afterHead h k size bv).remaining = s.remaining - h := rfl
@[simp] theorem afterHead_limited : (s.afterHead h k size bv).limited = s.limited := rfl
@[simp] theorem afterHead_kind : (s.afterHead h k size bv).kind = some k := rfl
@[simp] theorem afterHead_size : (s.afterHead h k size bv).size = size := rfl
@[simp] theorem afterHead_byteval : (s.afterHead h k size bv).byteval = bv := rfl
@[simp] theorem afterHead_kinderr : (s.afterHead h k size bv).kinderr = none := rfl
@[simp] theorem afterHead_stack : (s.afterHead h k size bv).stack = bumpTop s.stack h := rfl

end AfterHead

/-- Once read, the kind is cached: `Kind` reads nothing more. -/
theorem kind_cached {s : Stream} {k : Kind} (hk : s.kind = some k) (he : s.kinderr = none) :
    kind.run s = .ok (k, s.size) s := by
  simp [kind, EStateM.run_bind, EStateM.run_get, hk, he]

/-- A method that starts with `Kind` runs the same from the stream `Kind` left, where the
kind is cached. -/
theorem run_kind_bind {α : Type} {f : Kind × Nat → StreamM α} {s s₁ : Stream} {x : Kind × Nat}
    (hkind : kind.run s = .ok x s₁) (hcached : kind.run s₁ = .ok x s₁) :
    (kind >>= f).run s = (kind >>= f).run s₁ := by
  rw [EStateM.run_bind, EStateM.run_bind, hkind, hcached]

/-- At the end of the innermost list `Kind` returns `EOL` and reads nothing. -/
theorem kind_eol {s : Stream} {tos : ListPos} {rest : List ListPos} (hk : s.kind = none)
    (hst : s.stack = tos :: rest) (hend : tos.pos = tos.size) :
    kind.run s = .error .eol { s with kinderr := none } := by
  simp [kind, EStateM.run_bind, EStateM.run_get, hk, EStateM.run_set, hst, hend]

/-- A value that fits passes the size check. -/
theorem sizeCheck_eq_none {s : Stream} {n : Nat} (h : Fits s n) : sizeCheck s n = none := by
  unfold sizeCheck
  split
  next hst =>
    have := h.1
    simp
    omega
  next tos rest hst =>
    have := h.2 tos rest hst
    simp
    omega

/-- Away from the end of a list, `Kind` is `readKind` followed by the size check, with the
result cached whether it is an error or not. -/
theorem kind_read {s s₁ : Stream} {k : Kind} {n : Nat} {err : Option StreamError}
    (hk : s.kind = none) (hnot : ∀ tos rest, s.stack = tos :: rest → tos.pos ≠ tos.size)
    (hr : readKind.run { s with kinderr := none } = .ok (k, n, err) s₁) :
    kind.run s = match err with
      | some e => .error e { s₁ with kind := some k, size := n, kinderr := some e }
      | none => match sizeCheck s₁ n with
        | some e => .error e { s₁ with kind := some k, size := n, kinderr := some e }
        | none => .ok (k, n) { s₁ with kind := some k, size := n, kinderr := none } := by
  unfold kind
  by_cases hst : s.stack = []
  · simp only [EStateM.run_bind, EStateM.run_get, hk, EStateM.run_set, if_true, hst] at hr ⊢
    rw [hr]
    cases err with
    | some e => rfl
    | none =>
      dsimp only
      cases sizeCheck s₁ n <;> rfl
  · obtain ⟨tos, st, hst⟩ := List.exists_cons_of_ne_nil hst
    have hend := hnot tos st hst
    simp only [EStateM.run_bind, EStateM.run_get, hk, EStateM.run_set, if_true, hst, hend,
      if_false] at hr ⊢
    rw [hr]
    cases err with
    | some e => rfl
    | none =>
      dsimp only
      cases sizeCheck s₁ n <;> rfl

/-- `Kind` reads a header whose value fits the innermost list and the input limit. -/
theorem kind_of_head {s : Stream} {k : Kind} {size : Nat} {bv : UInt8} {hd rest : List UInt8}
    (hk : s.kind = none) (hlim : s.limited = true) (hh : HeadOf k size bv hd)
    (hfit : Fits s (hd.length + size)) (hin : s.input = hd ++ rest) :
    kind.run s = .ok (k, size) (s.afterHead hd.length k size bv) := by
  have hpos := hh.length_pos
  have hnot : ∀ tos rest, s.stack = tos :: rest → tos.pos ≠ tos.size := by
    intro tos rest hst
    have := hfit.2 tos rest hst
    omega
  rw [kind_read hk hnot (readKind_of_head hh hlim (fits_mono hfit (by omega)) hin)]
  dsimp only
  split
  next e he =>
    rw [sizeCheck_eq_none] at he
    · cases he
    · exact fits_skip hfit
  next he => rfl

/-- What `Kind` read without an error is a header `readKind` accepts, and nothing else. -/
theorem head_of_kind {s s' : Stream} {k : Kind} {size : Nat} (hk : s.kind = none)
    (hlim : s.limited = true) (h : kind.run s = .ok (k, size) s') :
    ∃ hd bv, HeadOf k size bv hd ∧ s.input = hd ++ s'.input ∧
      s' = s.afterHead hd.length k size bv := by
  have hnot : ∀ tos rest, s.stack = tos :: rest → tos.pos ≠ tos.size := by
    intro tos rest hst hend
    rw [kind_eol hk hst hend] at h
    cases h
  obtain ⟨k', n', err, s₁, hr, -⟩ := readKind_ok { s with kinderr := none }
  rw [kind_read hk hnot hr] at h
  cases err with
  | some e => cases h
  | none =>
    dsimp only at h
    split at h
    next e he => cases h
    next he =>
      simp only [EStateM.Result.ok.injEq, Prod.mk.injEq] at h
      obtain ⟨⟨rfl, rfl⟩, rfl⟩ := h
      obtain ⟨hd, bv, hh, hin, rfl⟩ := head_of_readKind (s := { s with kinderr := none }) hlim hr
      exact ⟨hd, bv, hh, hin, rfl⟩

theorem sizeCheck_ne_eol (s : Stream) (n : Nat) : sizeCheck s n ≠ some .eol := by
  unfold sizeCheck
  split <;> split <;> simp

/-- `Kind` fails with `EOL` only at the end of the innermost list, having read nothing. -/
theorem kind_error_eol {s s' : Stream} (hk : s.kind = none) (h : kind.run s = .error .eol s') :
    (∃ tos rest, s.stack = tos :: rest ∧ tos.pos = tos.size) ∧ s' = { s with kinderr := none } := by
  by_cases hend : ∃ tos rest, s.stack = tos :: rest ∧ tos.pos = tos.size
  · obtain ⟨tos, rest, hst, heq⟩ := hend
    rw [kind_eol hk hst heq] at h
    cases h
    exact ⟨⟨tos, rest, hst, heq⟩, rfl⟩
  · have hnot : ∀ tos rest, s.stack = tos :: rest → tos.pos ≠ tos.size :=
      fun tos rest hst heq => hend ⟨tos, rest, hst, heq⟩
    obtain ⟨k, n, err, s₁, hr, hne⟩ := readKind_ok { s with kinderr := none }
    rw [kind_read hk hnot hr] at h
    -- the errors of the read and of the size check are never `EOL`
    cases err with
    | some e =>
      simp only [EStateM.Result.error.injEq] at h
      exact absurd (congrArg some h.1) hne
    | none =>
      dsimp only at h
      split at h
      next e he =>
        simp only [EStateM.Result.error.injEq] at h
        exact absurd (h.1 ▸ he) (sizeCheck_ne_eol s₁ n)
      next he => cases h

/-- The stream after `Bytes` of a single byte: `Kind` rearmed. -/
def Stream.rearm (s : Stream) : Stream := { s with kind := none }

/-- The stream after `List`: the list pushed, nothing of it read. -/
def Stream.enterList (s : Stream) : Stream :=
  { s with stack := ⟨0, s.size⟩ :: s.stack, kind := none, size := 0 }

/-- The stream after `ListEnd` of a list of `n` bytes, with `rest` the lists around it. -/
def Stream.leaveList (s : Stream) (rest : List ListPos) (n : Nat) : Stream :=
  { s with stack := bumpTop rest n, kind := none, size := 0 }

section Lists

variable (s : Stream) (rest : List ListPos) (n : Nat)

@[simp] theorem rearm_input : s.rearm.input = s.input := rfl
@[simp] theorem rearm_remaining : s.rearm.remaining = s.remaining := rfl
@[simp] theorem rearm_limited : s.rearm.limited = s.limited := rfl
@[simp] theorem rearm_kind : s.rearm.kind = none := rfl
@[simp] theorem rearm_stack : s.rearm.stack = s.stack := rfl
@[simp] theorem enterList_input : s.enterList.input = s.input := rfl
@[simp] theorem enterList_remaining : s.enterList.remaining = s.remaining := rfl
@[simp] theorem enterList_limited : s.enterList.limited = s.limited := rfl
@[simp] theorem enterList_kind : s.enterList.kind = none := rfl
@[simp] theorem enterList_stack : s.enterList.stack = ⟨0, s.size⟩ :: s.stack := rfl
@[simp] theorem leaveList_input : (s.leaveList rest n).input = s.input := rfl
@[simp] theorem leaveList_remaining : (s.leaveList rest n).remaining = s.remaining := rfl
@[simp] theorem leaveList_limited : (s.leaveList rest n).limited = s.limited := rfl
@[simp] theorem leaveList_kind : (s.leaveList rest n).kind = none := rfl
@[simp] theorem leaveList_stack : (s.leaveList rest n).stack = bumpTop rest n := rfl

end Lists

/-- `Bytes` of a single byte below `0x80`: the byte kept by `readKind`. -/
theorem bytes_byte {s : Stream} (hk : s.kind = some .byte) (he : s.kinderr = none) :
    bytes.run s = .ok [s.byteval] s.rearm := by
  simp [bytes, EStateM.run_bind, kind_cached hk he, EStateM.run_modify, EStateM.run_get,
    Stream.rearm]

/-- `Bytes` of a string: its content, read whole, unless it is one byte below `0x80`. -/
theorem bytes_string {s : Stream} (hk : s.kind = some .string) (he : s.kinderr = none)
    (hlim : s.limited = true) (hfit : Fits s s.size) (hn : s.size ≤ s.input.length)
    (hcanon : ¬ (s.size = 1 ∧ (s.input.take s.size).headD 0 < 128)) :
    bytes.run s = .ok (s.input.take s.size) (s.skip s.size) := by
  simp only [bytes, EStateM.run_bind, kind_cached hk he, readFull_ok hlim hfit hn, hcanon,
    if_false]
  rfl

/-- What `Bytes` returned: the byte of a byte, or the whole content of a string that is not
one byte below `0x80`. -/
theorem bytes_inv {s s' : Stream} {k : Kind} {b : List UInt8} (hk : s.kind = some k)
    (he : s.kinderr = none) (hlim : s.limited = true) (h : bytes.run s = .ok b s') :
    (k = .byte ∧ b = [s.byteval] ∧ s' = s.rearm) ∨
    (k = .string ∧ b = s.input.take s.size ∧ s.size ≤ s.input.length ∧
      ¬ (s.size = 1 ∧ b.headD 0 < 128) ∧ s' = s.skip s.size) := by
  simp only [bytes, EStateM.run_bind, kind_cached hk he] at h
  cases k with
  | byte =>
    simp [EStateM.run_modify, EStateM.run_get] at h
    exact .inl ⟨rfl, h.1.symm, h.2.symm⟩
  | string =>
    obtain ⟨w, s₁, hw, h⟩ := EStateM.run_bind_eq_ok.mp h
    obtain ⟨rfl, hlen, rfl⟩ := readFull_inv hlim hw
    by_cases hc : s.size = 1 ∧ (s.input.take s.size).headD 0 < 128
    · rw [if_pos hc] at h
      cases h
    · simp only [hc, if_false, EStateM.run_pure, EStateM.Result.ok.injEq] at h
      obtain ⟨rfl, rfl⟩ := h
      exact .inr ⟨rfl, rfl, hlen, hc, rfl⟩
  | list => cases h

theorem bytes_error {s s' : Stream} {k : Kind} {e : StreamError} (hk : s.kind = some k)
    (he : s.kinderr = none) (h : bytes.run s = .error e s') : e ≠ .eol := by
  simp only [bytes, EStateM.run_bind, kind_cached hk he] at h
  cases k with
  | byte => simp [EStateM.run_modify, EStateM.run_get] at h
  | string =>
    rcases EStateM.run_bind_eq_error.mp h with hw | ⟨w, s₁, -, h⟩
    · rcases readFull_error hw with rfl | rfl | rfl <;> simp
    · by_cases hc : s.size = 1 ∧ w.headD 0 < 128
      · rw [if_pos hc] at h
        cases h
        simp
      · simp only [hc, if_false] at h
        cases h
  | list =>
    cases h
    simp

/-- `List` enters the list whose header `Kind` read. -/
theorem list_ok {s : Stream} (hk : s.kind = some .list) (he : s.kinderr = none) :
    list.run s = .ok s.size s.enterList := by
  simp [list, EStateM.run_bind, kind_cached hk he, EStateM.run_modify, Stream.enterList]

/-- `List` after `Kind` read a list header: the list entered. -/
theorem list_of_kind {s s' : Stream} {n : Nat} (h : kind.run s = .ok (.list, n) s')
    (hn : s'.size = n) : list.run s = .ok n s'.enterList := by
  simp [list, EStateM.run_bind, h, EStateM.run_modify, Stream.enterList, hn]

theorem list_inv {s s' : Stream} {k : Kind} {n : Nat} (hk : s.kind = some k)
    (he : s.kinderr = none) (h : list.run s = .ok n s') :
    k = .list ∧ n = s.size ∧
      s' = s.enterList := by
  by_cases hl : k = .list
  · subst hl
    rw [list_ok hk he] at h
    cases h
    exact ⟨rfl, rfl, rfl⟩
  · simp [list, EStateM.run_bind, kind_cached hk he, hl] at h

/-- `ListEnd` at the end of the innermost list: the list counts as read in the enclosing one. -/
theorem listEnd_ok {s : Stream} {tos : ListPos} {rest : List ListPos} (hst : s.stack = tos :: rest)
    (hend : tos.pos = tos.size) :
    listEnd.run s = .ok () (s.leaveList rest tos.size) := by
  cases rest <;> simp [listEnd, EStateM.run_bind, EStateM.run_get, hst, hend, EStateM.run_set,
    Stream.leaveList]

theorem listEnd_inv {s s' : Stream} {u : Unit} (h : listEnd.run s = .ok u s') :
    ∃ tos rest, s.stack = tos :: rest ∧ tos.pos = tos.size ∧
      s' = s.leaveList rest tos.size := by
  cases hst : s.stack with
  | nil => simp [listEnd, EStateM.run_bind, EStateM.run_get, hst] at h
  | cons tos rest =>
    by_cases hend : tos.pos = tos.size
    · rw [listEnd_ok hst hend] at h
      cases h
      exact ⟨tos, rest, rfl, hend, rfl⟩
    · simp [listEnd, EStateM.run_bind, EStateM.run_get, hst, hend] at h

theorem listEnd_error {s s' : Stream} {e : StreamError} (h : listEnd.run s = .error e s') :
    e ≠ .eol := by
  cases hst : s.stack with
  | nil =>
    simp [listEnd, EStateM.run_bind, EStateM.run_get, hst] at h
    simp [← h]
  | cons tos rest =>
    by_cases hend : tos.pos = tos.size
    · rw [listEnd_ok hst hend] at h
      cases h
    · simp [listEnd, EStateM.run_bind, EStateM.run_get, hst, hend] at h
      simp [← h]

end GoMetadium.Rlp
