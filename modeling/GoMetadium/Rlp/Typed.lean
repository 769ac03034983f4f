import GoMetadium.Rlp.Stream
import GoMetadium.Rlp.Encbuf

set_option autoImplicit false

/-! # Typed values (`rlp/encode.go`, `rlp/decode.go`, `rlp/typecache.go`)

For a value of a Go type, `EncodeToBytes` and `DecodeBytes` use the writer and the decoder
that `makeWriter` and `makeDecoder` build from the type and the struct tags of the field
holding it. A type is described here by a `GoType`: unsigned integers, `bool`, `string`,
`big.Int`, slices, arrays, structs by their exported fields with their tags, and pointers. A
slice or array of `uint8` is a byte slice or array. A value is a `GoValue`. Both builders
test the cases in the source's order (`*big.Int` before other pointers, byte arrays before
other arrays), and each decoder decodes into the zero value of its type, as `DecodeBytes`
does into a fresh variable.

The writer writes one RLP item per value, except for a slice tagged `tail`, whose elements
go into the enclosing list: `writeValue_eq_writeItems` says which items (`itemsOf`).

`decodeByteArray` reads a single byte below `0x80` with `bv, _ := s.Uint()`, dropping the
error. `Uint` refuses the byte `0x00` with `ErrCanonInt` before it rearms `Kind`, so that
byte stays the cached value: the array holds `0`, and the next decoder of the same list
reads the same byte again. A struct holding a `[1]byte` of zero followed by an integer
therefore does not decode from its own encoding (`typedDecodeBytes_byteArrayZero_uint`).

The decoders recurse once per nested value and once per element; as for the untyped decoder
the model bounds that by `fuel`, which `DecodeBytes` sets from the length of the input and
the size of the type.
-/

open Rlp

namespace GoMetadium.Rlp

/-! ## Types, tags and values -/

/-- `tags`: what `parseStructTag` read from the tag of a struct field. -/
structure Tags where
  nilKind : Kind
  nilOK : Bool
  tail : Bool
  ignored : Bool
  deriving DecidableEq, Repr

/-- `tags{}`, the tags of a value that is not a struct field; Go's zero `Kind` is `Byte`. -/
def noTags : Tags := ⟨.byte, false, false, false⟩

/-- The Go types the package writes and decodes, as far as modelled. -/
inductive GoType where
  /-- An unsigned integer type of `bits` bits. -/
  | uint (bits : Nat)
  | bool
  | string
  /-- `big.Int`; a `*big.Int` is `ptr bigInt`. -/
  | bigInt
  | slice (elem : GoType)
  | array (n : Nat) (elem : GoType)
  /-- A struct, by its exported fields and their tags. -/
  | struct (fields : List (GoType × Tags))
  | ptr (elem : GoType)
  deriving Repr

/-- `isByte(typ)`: `uint8` (no type here has an `EncodeRLP` method). -/
def GoType.isByte : GoType → Bool
  | .uint 8 => true
  | _ => false

/-- `isByteArray(typ)`: a slice or an array of bytes. -/
def GoType.isByteArray : GoType → Bool
  | .slice elem => elem.isByte
  | .array _ elem => elem.isByte
  | _ => false

/-- `defaultNilKind(typ)`: a nil pointer to `typ` is an empty string or an empty list. -/
def defaultNilKind (t : GoType) : Kind :=
  match t with
  | .uint _ | .string | .bool => .string
  | t => if t.isByteArray then .string else .list

/-- A Go value. -/
inductive GoValue where
  | uint (i : UInt64)
  | bool (b : Bool)
  | string (s : List UInt8)
  /-- A byte slice or a byte array. -/
  | bytes (b : List UInt8)
  /-- A `big.Int`, not negative. -/
  | bigInt (i : Nat)
  /-- Any other slice or array. -/
  | list (vs : List GoValue)
  /-- A struct, by the values of its exported fields. -/
  | struct (fields : List GoValue)
  | nilPtr
  | ptr (v : GoValue)
  deriving Repr

mutual

/-- The zero value of a type. -/
def GoType.zero : GoType → GoValue
  | .uint _ => .uint 0
  | .bool => .bool false
  | .string => .string []
  | .bigInt => .bigInt 0
  | .slice elem => if elem.isByte then .bytes [] else .list []
  | .array n elem => if elem.isByte then .bytes (List.replicate n 0) else .list (List.replicate n elem.zero)
  | .struct fields => .struct (fieldZeros fields)
  | .ptr _ => .nilPtr

/-- The zero values of the fields of a struct. -/
def fieldZeros : List (GoType × Tags) → List GoValue
  | [] => []
  | (t, _) :: fs => t.zero :: fieldZeros fs

end

mutual

/-- The number of type constructors in a type. -/
def GoType.size : GoType → Nat
  | .slice elem | .array _ elem | .ptr elem => elem.size + 1
  | .struct fields => fieldsSize fields + 1
  | _ => 1

/-- The sizes of the field types of a struct. -/
def fieldsSize : List (GoType × Tags) → Nat
  | [] => 0
  | (t, _) :: fs => t.size + fieldsSize fs

end

/-- `parseStructTag` for a field of type `ftype` with the tag `tag`, split at commas and
trimmed; `isLast` says whether the field is the last exported one. An error is the reason
`structTagError` gives, or the unknown tag; the type and field names around it are left
out. -/
def parseStructTag (ftype : GoType) (isLast : Bool) (tag : List String) : Except String Tags :=
  tag.foldlM (fun ts t =>
    if t = "" then pure ts
    else if t = "-" then pure { ts with ignored := true }
    else if t = "nil" ∨ t = "nilString" ∨ t = "nilList" then
      match ftype with
      | .ptr elem =>
        pure { ts with
          nilOK := true
          nilKind := if t = "nil" then defaultNilKind elem else if t = "nilString" then .string else .list }
      | _ => throw "field is not a pointer"
    else if t = "tail" then
      if !isLast then throw "must be on last field"
      else match ftype with
        | .slice _ => pure { ts with tail := true }
        | _ => throw "field type is not slice"
    else throw ("rlp: unknown struct tag " ++ t)) noTags

/-! ## The writers -/

/-- `writeUint`. -/
def writeUint (i : UInt64) (w : EncBuf) : EncBuf :=
  if i = 0 then { w with str := w.str ++ [0x80] }
  -- fits single byte
  else if i < 128 then { w with str := w.str ++ [i.toUInt8] }
  else { w with str := w.str ++ ((0x80 + UInt8.ofNat (putint i.toNat).length) :: putint i.toNat) }

/-- `writeBool`. -/
def writeBool (b : Bool) (w : EncBuf) : EncBuf :=
  if b then { w with str := w.str ++ [0x01] } else { w with str := w.str ++ [0x80] }

/-- `writeBigInt` of a value that is not negative: `i.Bytes()` is `putint i` for `0 < i`. -/
def writeBigInt (i : Nat) (w : EncBuf) : EncBuf :=
  if i = 0 then { w with str := w.str ++ [0x80] } else w.encodeString (putint i)

/-- `writeString`. -/
def writeString (s : List UInt8) (w : EncBuf) : EncBuf :=
  -- fits single byte, no string header
  if s.length = 1 ∧ s.headD 0 ≤ 0x7F then { w with str := w.str ++ [s.headD 0] }
  else
    let w := w.encodeStringHeader s.length
    { w with str := w.str ++ s }

/-- The writer of `makePtrWriter` for a nil pointer to `elem`: the struct tag says whether it
is an empty string or an empty list, or else the element type. -/
def writeNilPtr (elem : GoType) (ts : Tags) (w : EncBuf) : EncBuf :=
  let nilKind := if ts.nilOK then ts.nilKind else defaultNilKind elem
  if nilKind = .string then { w with str := w.str ++ [0x80] } else w.list.listEnd w.lheads.length

mutual

/-- The writer `makeWriter` builds for a type and its tags, applied to a value. -/
def writeValue : GoType → Tags → GoValue → EncBuf → EncBuf
  -- `writeBigIntPtr` and `writeBigIntNoPtr` come before the pointer writer
  | .ptr .bigInt, _, .nilPtr, w => { w with str := w.str ++ [0x80] }
  | .ptr .bigInt, _, .ptr (.bigInt i), w => writeBigInt i w
  | .bigInt, _, .bigInt i, w => writeBigInt i w
  | .ptr elem, ts, .nilPtr, w => writeNilPtr elem ts w
  | .ptr elem, _, .ptr v, w => writeValue elem noTags v w
  | .uint _, _, .uint i, w => writeUint i w
  | .bool, _, .bool b, w => writeBool b w
  | .string, _, .string s, w => writeString s w
  -- `writeBytes` and `writeByteArray`
  | .slice _, _, .bytes b, w => w.encodeString b
  | .array _ _, _, .bytes b, w => w.encodeString b
  -- `makeSliceWriter`: a `tail` slice writes no list header
  | .slice elem, ts, .list vs, w =>
    if ts.tail then writeElems elem vs w else (writeElems elem vs w.list).listEnd w.lheads.length
  | .array _ elem, _, .list vs, w => (writeElems elem vs w.list).listEnd w.lheads.length
  | .struct fields, _, .struct vs, w => (writeFields fields vs w.list).listEnd w.lheads.length
  | _, _, _, w => w

/-- The loop of the slice writer over the elements. -/
def writeElems : GoType → List GoValue → EncBuf → EncBuf
  | _, [], w => w
  | elem, v :: vs, w => writeElems elem vs (writeValue elem noTags v w)

/-- The loop of the struct writer over the fields; `structFields` leaves out the ignored
ones. -/
def writeFields : List (GoType × Tags) → List GoValue → EncBuf → EncBuf
  | (ft, fts) :: fs, v :: vs, w =>
    if fts.ignored then writeFields fs vs w else writeFields fs vs (writeValue ft fts v w)
  | _, _, w => w

end

/-- The bytes `writeUint` and `writeBigInt` write of an integer: none for zero. -/
def uintBytes (i : Nat) : List UInt8 := if i = 0 then [] else putint i

/-- The item a nil pointer to `elem` is written as. -/
def nilPtrItem (elem : GoType) (ts : Tags) : Item :=
  let nilKind := if ts.nilOK then ts.nilKind else defaultNilKind elem
  if nilKind = .string then .str [] else .list []

mutual

/-- The items `writeValue` writes for a value: one, except for a slice tagged `tail`, whose
elements go into the enclosing list, and none for a value that does not have the type. -/
def itemsOf : GoType → Tags → GoValue → List Item
  | .ptr .bigInt, _, .nilPtr => [.str []]
  | .ptr .bigInt, _, .ptr (.bigInt i) => [.str (uintBytes i)]
  | .bigInt, _, .bigInt i => [.str (uintBytes i)]
  | .ptr elem, ts, .nilPtr => [nilPtrItem elem ts]
  | .ptr elem, _, .ptr v => itemsOf elem noTags v
  | .uint _, _, .uint i => [.str (uintBytes i.toNat)]
  | .bool, _, .bool b => [.str (if b then [1] else [])]
  | .string, _, .string s => [.str s]
  | .slice _, _, .bytes b => [.str b]
  | .array _ _, _, .bytes b => [.str b]
  | .slice elem, ts, .list vs => if ts.tail then elemItems elem vs else [.list (elemItems elem vs)]
  | .array _ elem, _, .list vs => [.list (elemItems elem vs)]
  | .struct fields, _, .struct vs => [.list (fieldItems fields vs)]
  | _, _, _ => []

/-- The items of the elements of a slice or an array. -/
def elemItems : GoType → List GoValue → List Item
  | _, [] => []
  | elem, v :: vs => itemsOf elem noTags v ++ elemItems elem vs

/-- The items of the fields of a struct that are not ignored. -/
def fieldItems : List (GoType × Tags) → List GoValue → List Item
  | (ft, fts) :: fs, v :: vs => if fts.ignored then fieldItems fs vs else itemsOf ft fts v ++ fieldItems fs vs
  | _, _ => []

end

/-- `EncodeToBytes(v)` for a value `v` of type `t`. -/
def typedEncodeToBytes (t : GoType) (v : GoValue) : List UInt8 :=
  (writeValue t noTags v EncBuf.empty).toBytes

/-! ## What the writer writes -/

theorem writeItems_append (a b : List Item) (w : EncBuf) :
    writeItems (a ++ b) w = writeItems b (writeItems a w) := by
  induction a generalizing w with
  | nil => rfl
  | cons i is ih => exact ih (writeItem i w)

@[simp] theorem writeItems_str (b : List UInt8) (w : EncBuf) :
    writeItems [.str b] w = w.encodeString b := rfl

@[simp] theorem writeItems_list (items : List Item) (w : EncBuf) :
    writeItems [.list items] w = (writeItems items w.list).listEnd w.lheads.length := rfl

theorem encodeString_nil (w : EncBuf) : w.encodeString [] = { w with str := w.str ++ [0x80] } := by
  simp [EncBuf.encodeString, EncBuf.encodeStringHeader]

theorem encodeString_single {b : UInt8} (hb : b ≤ 0x7F) (w : EncBuf) :
    w.encodeString [b] = { w with str := w.str ++ [b] } := by
  simp [EncBuf.encodeString, hb]

/-- `writeUint` writes the integer's bytes as a string: a `uint64` needs at most eight, so the
header is one byte. -/
theorem writeUint_eq (i : UInt64) (w : EncBuf) :
    writeUint i w = w.encodeString (uintBytes i.toNat) := by
  unfold writeUint uintBytes
  by_cases h0 : i = 0
  · subst h0
    simp [encodeString_nil]
  · have hn : i.toNat ≠ 0 := fun h => h0 (UInt64.toNat_inj.mp h)
    rw [if_neg h0, if_neg hn]
    by_cases hs : i < 128
    · have hlt : i.toNat < 128 := hs
      rw [if_pos hs, putint_of_lt (by omega), encodeString_single]
      · rw [show i.toUInt8 = UInt8.ofNat i.toNat from UInt8.toNat_inj.mp rfl]
      · show (UInt8.ofNat i.toNat).toNat ≤ 127
        rw [toNat_ofNat_of_lt (by omega)]
        omega
    · rw [if_neg hs]
      have hle : 128 ≤ i.toNat := Nat.le_of_not_lt hs
      have hlen : (putint i.toNat).length ≤ 8 :=
        length_putint_le (by omega) (by have := i.toNat_lt; simpa using this)
      have hnot : ¬ ((putint i.toNat).length = 1 ∧ (putint i.toNat).headD 0 ≤ 0x7F) := by
        rintro ⟨h1, h2⟩
        have h256 := length_putint_eq_one h1
        rw [putint_of_lt h256] at h2
        have : (UInt8.ofNat i.toNat).toNat ≤ 127 := h2
        rw [toNat_ofNat_of_lt h256] at this
        omega
      rw [EncBuf.encodeString, if_neg hnot, EncBuf.encodeStringHeader,
        if_pos (show (putint i.toNat).length < 56 by omega)]
      simp

theorem writeBigInt_eq (i : Nat) (w : EncBuf) : writeBigInt i w = w.encodeString (uintBytes i) := by
  unfold writeBigInt uintBytes
  by_cases h0 : i = 0
  · simp [h0, encodeString_nil]
  · simp [h0]

theorem writeBool_eq (b : Bool) (w : EncBuf) :
    writeBool b w = w.encodeString (if b then [1] else []) := by
  cases b with
  | false => simp [writeBool, encodeString_nil]
  | true => simp [writeBool, encodeString_single]

theorem writeString_eq (s : List UInt8) (w : EncBuf) : writeString s w = w.encodeString s := by
  unfold writeString EncBuf.encodeString
  split
  next h =>
    -- a single byte below `0x80` is written as it is
    obtain ⟨a, rfl⟩ := List.length_eq_one_iff.mp h.1
    rfl
  next => rfl

theorem writeNilPtr_eq (elem : GoType) (ts : Tags) (w : EncBuf) :
    writeNilPtr elem ts w = writeItems [nilPtrItem elem ts] w := by
  unfold writeNilPtr nilPtrItem
  dsimp only
  generalize (if ts.nilOK then ts.nilKind else defaultNilKind elem) = k
  by_cases hk : k = .string
  · simp [hk, encodeString_nil]
  · simp only [hk, if_false]
    rfl

/-- The typed writer writes the items `itemsOf` gives. -/
theorem writeValue_eq_writeItems (t : GoType) (ts : Tags) (v : GoValue) (w : EncBuf) :
    writeValue t ts v w = writeItems (itemsOf t ts v) w := by
  -- by the writer's recursion: the value, and the loops over elements and over fields
  induction t, ts, v, w using writeValue.induct
  case motive_2 fields vs w => exact writeFields fields vs w = writeItems (fieldItems fields vs) w
  case motive_3 elem vs w => exact writeElems elem vs w = writeItems (elemItems elem vs) w
  -- a scalar or a nil pointer is one string or one empty list
  case case1 => simp [writeValue, itemsOf, encodeString_nil]
  case case2 | case3 => simp [writeValue, itemsOf, writeBigInt_eq]
  case case4 => simp [writeValue, itemsOf, writeNilPtr_eq]
  case case6 => simp [writeValue, itemsOf, writeUint_eq]
  case case7 => simp [writeValue, itemsOf, writeBool_eq]
  case case8 => simp [writeValue, itemsOf, writeString_eq]
  case case9 | case10 => simp [writeValue, itemsOf]
  -- a pointer writes what its element does
  case case5 h ih => simp_all [writeValue, itemsOf]
  -- a list is the items of its elements or fields under one header
  case case11 h ih => simp [writeValue, itemsOf, h, ih]
  case case12 h ih => simp [writeValue, itemsOf, h, ih]
  case case13 ih => simp [writeValue, itemsOf, ih]
  case case14 ih => simp [writeValue, itemsOf, ih]
  case case16 h ih => simp [writeFields, fieldItems, h, ih]
  case case17 h ih₁ ih₂ =>
    simp only [writeFields, fieldItems]
    rw [if_neg h, if_neg h, writeItems_append, ih₂, ih₁]
  case case20 ih₁ ih₂ =>
    simp only [writeElems, elemItems, writeItems_append]
    rw [ih₂, ih₁]
  -- a value without its type writes nothing
  case case15 => simp_all [writeValue, itemsOf]; rfl
  case case18 | case19 => simp_all [writeFields, fieldItems, writeElems]; rfl

/-- `EncodeToBytes` of a typed value is the encoding of its items. -/
theorem typedEncodeToBytes_eq_encodeList (t : GoType) (v : GoValue) :
    typedEncodeToBytes t v = encodeList (itemsOf t noTags v) := by
  obtain ⟨seg, hs, k, heq, hin, hrender, -⟩ := writesAll_writeItems (itemsOf t noTags v) EncBuf.empty
  unfold typedEncodeToBytes EncBuf.toBytes
  rw [writeValue_eq_writeItems, heq]
  simp only [EncBuf.empty, List.nil_append, List.length_nil, Nat.zero_add] at hin hrender ⊢
  rw [toBytesLoop_eq_renderSeg seg 0 hs hin, List.drop_zero, hrender]

/-! ## The stream's integers -/

/-- `s.uint(maxbits)`. -/
def uint (maxbits : Nat) : StreamM Nat := do
  let (k, size) ← kind
  match k with
  | .byte =>
    if (← get).byteval = 0 then throw .canonInt
    -- rearm Kind
    modify fun s => { s with kind := none }
    pure (← get).byteval.toNat
  | .string =>
    if size > maxbits / 8 then throw .uintOverflow
    match ← attempt (readUint size) with
    -- not reading a size, so the error is about the integer
    | .error .canonSize => throw .canonInt
    | .error e => throw e
    | .ok v => if size > 0 ∧ v < 128 then throw .canonSize else pure v
  | .list => throw .expectedString

/-- `s.Bool()`. -/
def bool : StreamM Bool := do
  match ← uint 8 with
  | 0 => pure false
  | 1 => pure true
  | n => throw (.invalidBool n)

/-! ## The decoders -/

/-- The errors of the typed decoders. -/
inductive DecodeError where
  /-- An error of the stream, returned as it is. -/
  | stream (e : StreamError)
  /-- A `decodeError` with its message; the type and the context it names are left out. -/
  | decode (msg : String)
  deriving DecidableEq, Repr

/-- `wrapStreamError(err, typ)`. -/
def wrapStreamError (e : StreamError) : DecodeError :=
  match e with
  | .canonInt => .decode "non-canonical integer (leading zero bytes)"
  | .canonSize => .decode "non-canonical size information"
  | .expectedList => .decode "expected input list"
  | .expectedString => .decode "expected input string or byte"
  | .uintOverflow => .decode "input string too long"
  | .notAtEOL => .decode "input list has too many elements"
  | e => .stream e

/-- `kind.String()`. -/
def kindString : Kind → String
  | .byte => "Byte"
  | .string => "String"
  | .list => "List"

/-- The decoders read the stream and keep its changes when they fail. -/
abbrev DecM := EStateM DecodeError Stream

/-- A stream method whose error the decoder returns as it is. -/
def liftStream {α : Type} (x : StreamM α) : DecM α := x.adaptExcept .stream

/-- A stream method whose error the decoder passes through `wrapStreamError`. -/
def wrapStream {α : Type} (x : StreamM α) : DecM α := x.adaptExcept wrapStreamError

/-- Go's `err := dec(s, val)`: the error as a value the caller inspects. -/
def attemptDec {α : Type} (x : DecM α) : DecM (Except DecodeError α) :=
  tryCatch (Except.ok <$> x) fun e => pure (.error e)

/-- `decodeUint` for an integer type of `bits` bits. -/
def decodeUint (bits : Nat) : DecM GoValue := do
  let num ← wrapStream (uint bits)
  pure (.uint (UInt64.ofNat num))

/-- `decodeBool`. -/
def decodeBool : DecM GoValue := do
  let b ← wrapStream bool
  pure (.bool b)

/-- `decodeString`. -/
def decodeString : DecM GoValue := do
  let b ← wrapStream bytes
  pure (.string b)

/-- `decodeByteSlice`. -/
def decodeByteSlice : DecM GoValue := do
  let b ← wrapStream bytes
  pure (.bytes b)

/-- `decodeBigInt`, also for a `big.Int` held by value (`decodeBigIntNoPtr`). -/
def decodeBigInt : DecM Nat := do
  let b ← wrapStream bytes
  -- reject leading zero bytes
  if b.length > 0 ∧ b.headD 0 = 0 then throw (wrapStreamError .canonInt)
  pure (bigEndian b)

/-- `decodeByteArray` for an array of `vlen` bytes. -/
def decodeByteArray (vlen : Nat) : DecM GoValue := do
  let (k, size) ← liftStream kind
  match k with
  | .byte =>
    if vlen = 0 then throw (.decode "input string too long")
    if vlen > 1 then throw (.decode "input string too short")
    -- `bv, _ := s.Uint()`: the error is dropped, and `bv` is then zero
    let bv := match ← liftStream (attempt (uint 64)) with
      | .ok v => v
      | .error _ => 0
    pure (.bytes [UInt8.ofNat bv])
  | .string =>
    if vlen < size then throw (.decode "input string too long")
    if vlen > size then throw (.decode "input string too short")
    let b ← liftStream (readFull vlen)
    -- reject cases where single byte encoding should have been used
    if size = 1 ∧ b.headD 0 < 128 then throw (wrapStreamError .canonSize)
    pure (.bytes b)
  | .list => throw (wrapStreamError .expectedString)

mutual

/-- The decoder `makeDecoder` builds for a type and its tags, with the bound `fuel` on the
recursion. -/
def decodeValue : Nat → GoType → Tags → DecM GoValue
  | 0, _, _ => throw (.stream .depth)
  | fuel + 1, t, ts =>
    match t with
    -- `decodeBigInt` and `decodeBigIntNoPtr` come before the pointer decoders
    | .ptr .bigInt => do
      let i ← decodeBigInt
      pure (.ptr (.bigInt i))
    | .bigInt => do
      let i ← decodeBigInt
      pure (.bigInt i)
    | .ptr elem => if ts.nilOK then decodeNilPtr fuel elem ts.nilKind else decodeSimplePtr fuel elem
    | .uint bits => decodeUint bits
    | .bool => decodeBool
    | .string => decodeString
    -- `makeListDecoder`: byte slices and arrays first
    | .slice elem =>
      if elem.isByte then decodeByteSlice
      else if ts.tail then do
        -- the struct decoder already entered the list
        let vs ← decodeSliceElems fuel elem
        pure (.list vs)
      else decodeListSlice fuel elem
    | .array n elem => if elem.isByte then decodeByteArray n else decodeListArray fuel n elem
    | .struct fields => decodeStruct fuel fields

/-- `decodeListSlice`. -/
def decodeListSlice : Nat → GoType → DecM GoValue
  | 0, _ => throw (.stream .depth)
  | fuel + 1, elem => do
    let size ← wrapStream list
    if size = 0 then
      liftStream listEnd
      pure (.list [])
    else
      let vs ← decodeSliceElems fuel elem
      liftStream listEnd
      pure (.list vs)

/-- `decodeSliceElems`: elements until `EOL`. -/
def decodeSliceElems : Nat → GoType → DecM (List GoValue)
  | 0, _ => throw (.stream .depth)
  | fuel + 1, elem => do
    match ← attemptDec (decodeValue fuel elem noTags) with
    | .error (.stream .eol) => pure []
    | .error e => throw e
    | .ok v =>
      let vs ← decodeSliceElems fuel elem
      pure (v :: vs)

/-- `decodeListArray` for an array of `n` elements. -/
def decodeListArray : Nat → Nat → GoType → DecM GoValue
  | 0, _, _ => throw (.stream .depth)
  | fuel + 1, n, elem => do
    let _ ← wrapStream list
    let vs ← decodeArrayElems fuel n elem
    if vs.length < n then throw (.decode "input list has too few elements")
    wrapStream listEnd
    pure (.list vs)

/-- The loop of `decodeListArray`: at most `n` elements, until `EOL`. -/
def decodeArrayElems : Nat → Nat → GoType → DecM (List GoValue)
  | 0, _, _ => throw (.stream .depth)
  | _ + 1, 0, _ => pure []
  | fuel + 1, n + 1, elem => do
    match ← attemptDec (decodeValue fuel elem noTags) with
    | .error (.stream .eol) => pure []
    | .error e => throw e
    | .ok v =>
      let vs ← decodeArrayElems fuel n elem
      pure (v :: vs)

/-- The decoder of `makeStructDecoder`. -/
def decodeStruct : Nat → List (GoType × Tags) → DecM GoValue
  | 0, _ => throw (.stream .depth)
  | fuel + 1, fields => do
    let _ ← wrapStream list
    let vs ← decodeFields fuel fields
    wrapStream listEnd
    pure (.struct vs)

/-- The loop of the struct decoder over the fields; an ignored field keeps its zero value. -/
def decodeFields : Nat → List (GoType × Tags) → DecM (List GoValue)
  | 0, _ => throw (.stream .depth)
  | _ + 1, [] => pure []
  | fuel + 1, (ft, fts) :: fs =>
    if fts.ignored then do
      let vs ← decodeFields fuel fs
      pure (ft.zero :: vs)
    else do
      match ← attemptDec (decodeValue fuel ft fts) with
      | .error (.stream .eol) => throw (.decode "too few elements")
      | .error e => throw e
      | .ok v =>
        let vs ← decodeFields fuel fs
        pure (v :: vs)

/-- The decoder of `makeSimplePtrDecoder`. -/
def decodeSimplePtr : Nat → GoType → DecM GoValue
  | 0, _ => throw (.stream .depth)
  | fuel + 1, elem => do
    let v ← decodeValue fuel elem noTags
    pure (.ptr v)

/-- The decoder of `makeNilPtrDecoder`: an empty value of the kind `nilKind` is a nil
pointer. -/
def decodeNilPtr : Nat → GoType → Kind → DecM GoValue
  | 0, _, _ => throw (.stream .depth)
  | fuel + 1, elem, nilKind => do
    let (k, size) ← wrapStream kind
    if k ≠ .byte ∧ size = 0 then
      if k ≠ nilKind then
        throw (.decode ("wrong kind of empty value (got " ++ kindString k ++ ", want " ++
          kindString nilKind ++ ")"))
      -- rearm Kind, so that the input moves on to the next value
      modify fun s => { s with kind := none }
      pure .nilPtr
    else
      let v ← decodeValue fuel elem noTags
      pure (.ptr v)

end

/-- `DecodeBytes(b, &v)` for `v` of type `t`. -/
def typedDecodeBytes (t : GoType) (b : List UInt8) : Except DecodeError GoValue :=
  match (decodeValue (4 * (b.length + 1) * (t.size + 1)) t noTags).run (Stream.reset b) with
  | .ok v s => if s.input.length > 0 then .error (.stream .moreThanOneValue) else .ok v
  | .error e _ => .error e

/-! ## Reading integers

`Uint` from a stream whose kind is cached, one lemma for each kind it can find; from a
stream with no kind cached, what it reads is the minimal encoding of the integer
(`uint_inv`), and every such encoding reads back (`uint_encode`). -/

/-- `Uint` of a cached byte other than zero: the byte, with `Kind` rearmed. -/
theorem uint_byte {s : Stream} {maxbits : Nat} (hk : s.kind = some .byte) (he : s.kinderr = none)
    (hz : s.byteval ≠ 0) : (uint maxbits).run s = .ok s.byteval.toNat s.rearm := by
  simp [uint, EStateM.run_bind, kind_cached hk he, EStateM.run_get, hz, EStateM.run_modify,
    Stream.rearm]

/-- `Uint` at a cached zero byte: `ErrCanonInt`, with `Kind` not rearmed. -/
theorem uint_byteZero {s : Stream} {maxbits : Nat} (hk : s.kind = some .byte)
    (he : s.kinderr = none) (hz : s.byteval = 0) :
    (uint maxbits).run s = .error .canonInt s := by
  simp [uint, EStateM.run_bind, kind_cached hk he, EStateM.run_get, hz]

/-- What `Uint` of a cached string returned: the string read by `readUint`, of at most
`maxbits / 8` bytes, and not a single byte below `0x80`. -/
theorem uint_string_inv {s s' : Stream} {maxbits v : Nat} (hk : s.kind = some .string)
    (he : s.kinderr = none) (h : (uint maxbits).run s = .ok v s') :
    s.size ≤ maxbits / 8 ∧ (readUint s.size).run s = .ok v s' ∧ ¬ (0 < s.size ∧ v < 128) := by
  simp only [uint, EStateM.run_bind, kind_cached hk he] at h
  by_cases ho : s.size > maxbits / 8
  · simp [ho] at h
  · simp only [ho, if_false, EStateM.run_bind, attempt_run] at h
    refine ⟨by omega, ?_⟩
    cases hr : (readUint s.size).run s with
    | error e s₁ =>
      rw [hr] at h
      cases e <;> simp at h
    | ok w s₁ =>
      rw [hr] at h
      by_cases hc : s.size > 0 ∧ w < 128
      · simp [hc] at h
      · simp only [hc, if_false, EStateM.run_pure, EStateM.Result.ok.injEq] at h
        obtain ⟨rfl, rfl⟩ := h
        exact ⟨rfl, hc⟩

/-- `Uint` of a cached string that `readUint` reads as an integer in range and of at least
`0x80` if it has a byte. -/
theorem uint_string {s s' : Stream} {maxbits v : Nat} (hk : s.kind = some .string)
    (he : s.kinderr = none) (hsize : s.size ≤ maxbits / 8)
    (hr : (readUint s.size).run s = .ok v s') (hc : ¬ (0 < s.size ∧ v < 128)) :
    (uint maxbits).run s = .ok v s' := by
  have ho : ¬ s.size > maxbits / 8 := by omega
  simp only [uint, EStateM.run_bind, kind_cached hk he, ho, if_false, attempt_run, hr]
  simp [hc]

/-- The encoding of an integer of at least one byte: a string header and the bytes. -/
theorem encode_str_putint {v : Nat} (hv : 128 ≤ v) :
    (Item.str (putint v)).encode = puthead 0x80 0xB7 (putint v).length ++ putint v := by
  have hnot : ¬ ((putint v).length = 1 ∧ (putint v).headD 0 ≤ 0x7F) := by
    rintro ⟨h1, h2⟩
    have h256 := length_putint_eq_one h1
    rw [putint_of_lt h256] at h2
    have : (UInt8.ofNat v).toNat ≤ 127 := h2
    rw [toNat_ofNat_of_lt h256] at this
    omega
  simp only [Item.encode, if_neg hnot]

/-- What `Uint` read from a stream with no cached kind is the minimal encoding of the integer
it returned. -/
theorem uint_inv {s s' : Stream} {maxbits v : Nat} (hk : s.kind = none) (hlim : s.limited = true)
    (hm : maxbits ≤ 64) (h : (uint maxbits).run s = .ok v s') :
    s.input = (Item.str (uintBytes v)).encode ++ s'.input ∧ v < 2 ^ 64 := by
  obtain ⟨⟨k, size⟩, s₁, hkind, -⟩ := EStateM.run_bind_eq_ok.mp h
  obtain ⟨hd, bv, hh, hin, rfl⟩ := head_of_kind hk hlim hkind
  -- from the stream `Kind` left, the kind is cached
  have hcached := kind_cached (s := s.afterHead hd.length k size bv) rfl rfl
  rw [uint, run_kind_bind hkind hcached, ← uint] at h
  cases hh with
  | byte hb =>
    -- a byte below `0x80`, not zero
    by_cases hz : bv = 0
    · rw [uint_byteZero rfl rfl hz] at h
      cases h
    · rw [uint_byte rfl rfl hz] at h
      cases h
      have hput : putint bv.toNat = [bv] := by rw [putint_of_lt bv.toNat_lt, UInt8.ofNat_toNat]
      have hnz : bv.toNat ≠ 0 := fun h0 => hz (UInt8.toNat_inj.mp h0)
      have henc : (Item.str (uintBytes bv.toNat)).encode = [bv] := by
        have hle : bv ≤ 0x7F := UInt8.le_iff_toNat_le.mpr (by have : bv.toNat < 128 := hb; simp; omega)
        rw [uintBytes, if_neg hnz, hput]
        simp only [Item.encode]
        exact if_pos ⟨rfl, hle⟩
      simp only [afterHead_byteval, rearm_input, henc]
      exact ⟨hin, by have := bv.toNat_lt; omega⟩
  | string hn =>
    obtain ⟨hsize, hr, hcanon⟩ := uint_string_inv rfl rfl h
    simp only [afterHead_size] at hsize hr hcanon
    by_cases h0 : size = 0
    · -- no bytes: the integer zero
      subst h0
      simp [readUint, EStateM.run_modify] at hr
      obtain ⟨rfl, rfl⟩ := hr
      exact ⟨by simpa [uintBytes, Item.encode] using hin, by norm_num⟩
    · -- the bytes of an integer of at least `0x80`, with no leading zero
      obtain ⟨hin₁, hlen, rfl⟩ := readUint_inv (by simpa using hlim) (by omega) hr
      have hv : 128 ≤ v := by omega
      have hput : uintBytes v = putint v := by simp [uintBytes, show v ≠ 0 by omega]
      refine ⟨?_, lt_of_length_putint_le (by omega)⟩
      rw [hput, encode_str_putint hv, hlen, hin, hin₁, List.append_assoc]
  | list hn => simp [uint, EStateM.run_bind, hcached] at h

/-- `Uint` reads back an integer from its minimal encoding, when its bytes fit `maxbits`. -/
theorem uint_encode {s : Stream} {maxbits v : Nat} {rest : List UInt8} (hk : s.kind = none)
    (hlim : s.limited = true) (hm : maxbits ≤ 64) (hv : (uintBytes v).length ≤ maxbits / 8)
    (hfit : Fits s (Item.str (uintBytes v)).encode.length)
    (hin : s.input = (Item.str (uintBytes v)).encode ++ rest) :
    ∃ s', (uint maxbits).run s = .ok v s' ∧ s'.input = rest := by
  rcases Nat.lt_or_ge v 128 with hsmall | hlarge
  · by_cases h0 : v = 0
    · -- zero: the empty string
      subst h0
      have henc : (Item.str (uintBytes 0)).encode = puthead 0x80 0xB7 0 := by
        simp [uintBytes, Item.encode]
      rw [henc] at hfit hin
      have hkind := kind_of_head hk hlim (HeadOf.string (by norm_num)) hfit hin
      refine ⟨{ s.afterHead (puthead 0x80 0xB7 0).length .string 0 0 with kind := none }, ?_, ?_⟩
      · rw [uint, run_kind_bind hkind (kind_cached rfl rfl), ← uint]
        exact uint_string rfl rfl (by simp) (by simp [readUint, EStateM.run_modify]) (by simp)
      · simp [hin]
    · -- a single byte below `0x80`
      have hlt : v < 256 := by omega
      have hbyte : (UInt8.ofNat v).toNat = v := toNat_ofNat_of_lt hlt
      have hle : UInt8.ofNat v < 0x80 := UInt8.lt_iff_toNat_lt.mpr (by simp; omega)
      have henc : (Item.str (uintBytes v)).encode = [UInt8.ofNat v] := by
        rw [uintBytes, if_neg h0, putint_of_lt hlt]
        simp only [Item.encode]
        exact if_pos ⟨rfl, UInt8.le_iff_toNat_le.mpr (by simp; omega)⟩
      rw [henc] at hfit hin
      have hkind := kind_of_head hk hlim (HeadOf.byte hle) hfit hin
      refine ⟨(s.afterHead [UInt8.ofNat v].length .byte 0 (UInt8.ofNat v)).rearm, ?_, ?_⟩
      · rw [uint, run_kind_bind hkind (kind_cached rfl rfl), ← uint,
          uint_byte rfl rfl (fun hz => h0 (by simpa [hbyte] using congrArg UInt8.toNat hz))]
        simp [hbyte]
      · simp [hin]
  · -- at least `0x80`: a string header and the bytes
    have hput : uintBytes v = putint v := by simp [uintBytes, show v ≠ 0 by omega]
    rw [hput, encode_str_putint hlarge] at hfit hin
    rw [hput] at hv
    have hfit' : Fits s ((puthead 0x80 0xB7 (putint v).length).length + (putint v).length) := by
      rwa [List.length_append] at hfit
    have hkind := kind_of_head hk hlim (HeadOf.string (by omega)) hfit' (by rw [hin, List.append_assoc])
    have hr := @readUint_putint
      (s.afterHead (puthead 0x80 0xB7 (putint v).length).length .string (putint v).length 0) v rest
      (by omega) hlim (fits_skip hfit') (by simp [hin])
    refine ⟨(s.afterHead (puthead 0x80 0xB7 (putint v).length).length .string (putint v).length
      0).skip (putint v).length, ?_, ?_⟩
    · rw [uint, run_kind_bind hkind (kind_cached rfl rfl), ← uint]
      exact uint_string rfl rfl hv hr (by omega)
    · simp [hin]

/-- `decodeUint` is `Uint`, with its error wrapped and its result a `uint64`. -/
theorem decodeUint_run (bits : Nat) (s : Stream) :
    (decodeUint bits).run s = match (uint bits).run s with
      | .ok n s' => .ok (.uint (UInt64.ofNat n)) s'
      | .error e s' => .error (wrapStreamError e) s' := by
  simp only [decodeUint, wrapStream, EStateM.run_bind, EStateM.run_adaptExcept]
  cases (uint bits).run s <;> rfl

/-! ## Decoding step by step -/

theorem attemptDec_run {α : Type} (x : DecM α) (s : Stream) :
    (attemptDec x).run s = match x.run s with
      | .ok a s' => .ok (.ok a) s'
      | .error e s' => .ok (.error e) s' := by
  unfold attemptDec
  rw [EStateM.run_tryCatch, EStateM.run_map]
  cases x.run s <;> rfl

/-- `decodeByteArray` of a `[1]byte` at a zero byte: the array holds zero, and the byte
stays the cached value of the stream. -/
theorem decodeByteArray_byteZero {s s' : Stream} (hkind : kind.run s = .ok (.byte, 0) s')
    (hk : s'.kind = some .byte) (he : s'.kinderr = none) (hz : s'.byteval = 0) :
    (decodeByteArray 1).run s = .ok (.bytes [0]) s' := by
  simp [decodeByteArray, liftStream, EStateM.run_bind, EStateM.run_adaptExcept, hkind, attempt_run,
    uint_byteZero hk he hz]

/-- `decodeUint` at a cached zero byte fails as a non-canonical integer. -/
theorem decodeUint_byteZero {s : Stream} {bits : Nat} (hk : s.kind = some .byte)
    (he : s.kinderr = none) (hz : s.byteval = 0) :
    (decodeUint bits).run s = .error (.decode "non-canonical integer (leading zero bytes)") s := by
  rw [decodeUint_run, uint_byteZero hk he hz]
  rfl


theorem decodeValue_byteArray (fuel n : Nat) (ts : Tags) :
    decodeValue (fuel + 1) (.array n (.uint 8)) ts = decodeByteArray n := by
  simp [decodeValue, GoType.isByte]

theorem decodeValue_uint (fuel bits : Nat) (ts : Tags) :
    decodeValue (fuel + 1) (.uint bits) ts = decodeUint bits := by
  simp [decodeValue]

theorem decodeValue_struct (fuel : Nat) (fields : List (GoType × Tags)) (ts : Tags) :
    decodeValue (fuel + 1) (.struct fields) ts = decodeStruct fuel fields := by
  simp [decodeValue]

section Fields

variable {fuel : Nat} {ft : GoType} {fts : Tags} {fs : List (GoType × Tags)} {s s₁ : Stream}

/-- A field that decodes: the loop goes on with the next. -/
theorem decodeFields_cons_ok {v : GoValue} (hi : fts.ignored = false)
    (h : (decodeValue fuel ft fts).run s = .ok v s₁) :
    (decodeFields (fuel + 1) ((ft, fts) :: fs)).run s =
      (do let vs ← decodeFields fuel fs; pure (v :: vs) : DecM (List GoValue)).run s₁ := by
  simp only [decodeFields, hi, Bool.false_eq_true, if_false, EStateM.run_bind, attemptDec_run, h]

/-- A field that fails with anything but `EOL` fails the struct. -/
theorem decodeFields_cons_error {e : DecodeError} (hi : fts.ignored = false)
    (h : (decodeValue fuel ft fts).run s = .error e s₁) (he : e ≠ .stream .eol) :
    (decodeFields (fuel + 1) ((ft, fts) :: fs)).run s = .error e s₁ := by
  simp only [decodeFields, hi, Bool.false_eq_true, if_false, EStateM.run_bind, attemptDec_run, h]
  rfl

end Fields

/-- A struct whose fields fail after its list header fails. -/
theorem decodeStruct_fields_error {fuel n : Nat} {fields : List (GoType × Tags)} {s s₁ s₂ : Stream}
    {e : DecodeError} (hl : list.run s = .ok n s₁) (h : (decodeFields fuel fields).run s₁ = .error e s₂) :
    (decodeStruct (fuel + 1) fields).run s = .error e s₂ := by
  simp [decodeStruct, wrapStream, EStateM.run_bind, EStateM.run_adaptExcept, hl, h]


/-! ## A zero byte array inside a struct -/

/-- A string item of at most eight bytes is encoded in at most nine. -/
theorem length_encode_str_le {b : List UInt8} (hb : b.length ≤ 8) : (Item.str b).encode.length ≤ 9 := by
  unfold Item.encode
  split
  next => omega
  next => simp [puthead, show b.length < 56 by omega]; omega

theorem length_uintBytes_le (i : UInt64) : (uintBytes i.toNat).length ≤ 8 := by
  unfold uintBytes
  split
  next => simp
  next => exact length_putint_le (by omega) (by have := i.toNat_lt; simpa using this)

/-- `struct { A [1]byte; B uint64 }` with `A = [1]byte{0}` does not decode from its own
encoding, whatever `B` holds: the zero byte of `A` is read again as `B`, and refused. -/
theorem typedDecodeBytes_byteArrayZero_uint (n : UInt64) :
    typedDecodeBytes (.struct [(.array 1 (.uint 8), noTags), (.uint 64, noTags)])
      (typedEncodeToBytes (.struct [(.array 1 (.uint 8), noTags), (.uint 64, noTags)])
        (.struct [.bytes [0], .uint n])) =
      .error (.decode "non-canonical integer (leading zero bytes)") := by
  -- the encoding: a list header, the byte `0x00`, and the integer's string
  set r := (Item.str (uintBytes n.toNat)).encode with hr
  have hrlen : r.length ≤ 9 := length_encode_str_le (length_uintBytes_le n)
  set p : List UInt8 := [0] ++ r with hp
  set hd := puthead 0xC0 0xF7 p.length with hhd
  have henc : typedEncodeToBytes (.struct [(.array 1 (.uint 8), noTags), (.uint 64, noTags)])
      (.struct [.bytes [0], .uint n]) = hd ++ p := by
    rw [typedEncodeToBytes_eq_encodeList]
    simp [itemsOf, fieldItems, noTags, encodeList, Item.encode, hp, hr, hhd]
  rw [henc]
  have hplen : p.length = r.length + 1 := by simp [hp]
  -- `Kind` reads the list header
  have hk₀ : kind.run (Stream.reset (hd ++ p)) =
      .ok (.list, p.length) ((Stream.reset (hd ++ p)).afterHead hd.length .list p.length 0) :=
    kind_of_head rfl rfl (HeadOf.list (by omega))
      ⟨by simp [Stream.reset], by simp [Stream.reset]⟩ rfl
  set s₁ := ((Stream.reset (hd ++ p)).afterHead hd.length .list p.length 0).enterList with hs₁
  have hl₀ : list.run (Stream.reset (hd ++ p)) = .ok p.length s₁ := list_of_kind hk₀ rfl
  -- inside the list, `Kind` reads the byte of `A`
  have hin₁ : s₁.input = [0] ++ r := by simp [hs₁, Stream.reset, hp]
  have hk₁ : kind.run s₁ = .ok (.byte, 0) (s₁.afterHead 1 .byte 0 0) := by
    refine kind_of_head rfl rfl (HeadOf.byte (by decide)) ⟨?_, ?_⟩ hin₁
    · simp [hs₁, Stream.reset]
      omega
    · intro tos rest hst
      simp [hs₁, Stream.reset] at hst
      simp [← hst.1]
      omega
  set s₂ := s₁.afterHead 1 .byte 0 0 with hs₂
  -- `A` holds the zero byte, which stays the cached value; `B` reads it again
  have hA : ∀ f, (decodeValue (f + 1) (.array 1 (.uint 8)) noTags).run s₁ = .ok (.bytes [0]) s₂ := by
    intro f
    rw [decodeValue_byteArray]
    exact decodeByteArray_byteZero hk₁ rfl rfl rfl
  have hB : ∀ f, (decodeValue (f + 1) (.uint 64) noTags).run s₂ =
      .error (.decode "non-canonical integer (leading zero bytes)") s₂ := by
    intro f
    rw [decodeValue_uint]
    exact decodeUint_byteZero rfl rfl rfl
  have hfields : ∀ f, (decodeFields (f + 3) [(.array 1 (.uint 8), noTags), (.uint 64, noTags)]).run s₁ =
      .error (.decode "non-canonical integer (leading zero bytes)") s₂ := by
    intro f
    rw [decodeFields_cons_ok rfl (hA (f + 1)), EStateM.run_bind,
      decodeFields_cons_error rfl (hB f) (by simp)]
  -- the bound is more than the five calls deep this needs
  obtain ⟨k, hk⟩ : ∃ k, 4 * ((hd ++ p).length + 1) *
      ((GoType.struct [(.array 1 (.uint 8), noTags), (.uint 64, noTags)]).size + 1) = k + 5 :=
    ⟨4 * ((hd ++ p).length + 1) * 5 - 5, by simp [GoType.size, fieldsSize]; omega⟩
  unfold typedDecodeBytes
  rw [hk, decodeValue_struct, decodeStruct_fields_error hl₀ (hfields k)]

/-! ## `uint64` values -/

/-- `DecodeBytes` into a `uint64` accepts exactly what `EncodeToBytes` writes for it: every
integer reads back, and only from its minimal big-endian form. -/
theorem typedDecodeBytes_uint64_iff (b : List UInt8) (i : UInt64) :
    typedDecodeBytes (.uint 64) b = .ok (.uint i) ↔ b = typedEncodeToBytes (.uint 64) (.uint i) := by
  have henc : typedEncodeToBytes (.uint 64) (.uint i) = (Item.str (uintBytes i.toNat)).encode := by
    rw [typedEncodeToBytes_eq_encodeList]
    simp [itemsOf, encodeList]
  rw [henc]
  -- the bound is more than the one call deep this needs
  obtain ⟨k, hk⟩ : ∃ k, 4 * (b.length + 1) * ((GoType.uint 64).size + 1) = k + 1 :=
    ⟨4 * (b.length + 1) * 2 - 1, by simp [GoType.size]; omega⟩
  unfold typedDecodeBytes
  rw [hk, decodeValue_uint, decodeUint_run]
  constructor
  · intro h
    cases hr : (uint 64).run (Stream.reset b) with
    | error e s' => simp [hr] at h
    | ok n s' =>
      simp only [hr] at h
      -- the whole input was read
      have hempty : s'.input = [] := by
        by_contra hne
        simp [List.length_pos_of_ne_nil hne] at h
      have hi : UInt64.ofNat n = i := by simpa [hempty] using h
      obtain ⟨hin, hlt⟩ := uint_inv rfl rfl (le_refl 64) hr
      have hn : i.toNat = n := by rw [← hi, UInt64.toNat_ofNat_of_lt' hlt]
      rw [hn]
      simpa [Stream.reset, hempty] using hin
  · intro hb
    have hfit : Fits (Stream.reset b) (Item.str (uintBytes i.toNat)).encode.length :=
      ⟨by simp [Stream.reset, hb], by simp [Stream.reset]⟩
    have hin : (Stream.reset b).input = (Item.str (uintBytes i.toNat)).encode ++ [] := by
      simp [Stream.reset, hb]
    obtain ⟨s', hr, hrest⟩ := uint_encode rfl rfl (le_refl 64) (by simpa using length_uintBytes_le i)
      hfit hin
    simp [hr, hrest]
end GoMetadium.Rlp
