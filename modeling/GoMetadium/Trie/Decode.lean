import GoMetadium.Trie.Node
import GoMetadium.Lib.Rlp

set_option autoImplicit false

/-! # Decoding nodes (`trie/node.go`)

`decodeNode(hash, buf)` reads a node back from its RLP encoding: a list of two values is a
short node (its key in COMPACT, then a value when the key has the terminator and a reference
otherwise), a list of seventeen a full node (sixteen references and a value). A reference
(`decodeRef`) is an embedded node (a list of at most 32 bytes, decoded in place), an empty
string for no child, or a 32-byte string for a hash node. The node decoded gets `hash` as its
cached hash and is clean; an embedded node gets none.

An embedded node is decoded by a call of `decodeNode` on the bytes of the reference, which
lie inside the bytes of its parent. The model bounds the depth of that recursion by `fuel`,
and the entry point `decodeNode` passes the length of the buffer, more than any nesting of
strictly shorter buffers can use.

Errors carry the failure and the stack of contexts `wrapError` adds on the way out, innermost
first, as `decodeError` prints them.
-/

namespace GoMetadium.Trie

/-- The failures of decoding. -/
inductive DecodeFailure where
  /-- `io.ErrUnexpectedEOF` for an empty buffer. -/
  | unexpectedEOF
  /-- `"decode error: %v"`: the buffer is not an RLP list. -/
  | decode (e : Rlp.Error)
  /-- `"invalid number of list elements: %v"`. -/
  | count (c : Nat)
  /-- An error of `rlp.Split` or `rlp.SplitString`, returned as it is. -/
  | rlp (e : Rlp.Error)
  /-- `"invalid value node: %v"`. -/
  | invalidValueNode (e : Rlp.Error)
  /-- `"oversized embedded node (size is %d bytes, want size < %d)"`. -/
  | oversized (size : Nat)
  /-- `"invalid RLP string size %d (want 0 or 32)"`. -/
  | stringSize (size : Nat)
  /-- Not Go: the bound on the nesting of embedded nodes ran out. -/
  | depth
  deriving DecidableEq, Repr

/-- A `decodeError`: the failure and the contexts added to it. An error that no context was
added to is Go's plain error. -/
structure DecodeError where
  what : DecodeFailure
  stack : List String
  deriving DecidableEq, Repr

/-- `wrapError(err, ctx)`: the context pushed onto the stack of the error. -/
def wrapError (ctx : String) (e : DecodeError) : DecodeError := ⟨e.what, e.stack ++ [ctx]⟩

/-- A plain error. -/
def DecodeError.plain (what : DecodeFailure) : DecodeError := ⟨what, []⟩

/-- `hashLen`: the size of a hash, and the bound on an embedded node's encoding. -/
def hashLen : Nat := 32

/-- The count `decodeNode` switches on: `rlp.CountValues` with its error dropped, which
leaves the count 0. -/
def valueCount (elems : List UInt8) : Nat :=
  match Rlp.countValues elems with
  | .ok c => c
  | .error _ => 0

mutual

/-- `decodeNode(hash, buf)` with the bound `fuel` on the nesting of embedded nodes. -/
def decodeNodeAux (fuel : Nat) (hash : Option (List UInt8)) (buf : List UInt8) :
    Except DecodeError Node :=
  if buf.length = 0 then .error (.plain .unexpectedEOF)
  else
    match Rlp.splitList buf with
    | .error e => .error (.plain (.decode e))
    | .ok (elems, _) =>
      match valueCount elems with
      | 2 => (decodeShort fuel hash elems).mapError (wrapError "short")
      | 17 => (decodeFull fuel hash elems).mapError (wrapError "full")
      | c => .error (.plain (.count c))
termination_by (fuel, 2)

/-- `decodeShort(hash, elems)`: a leaf when the key has the terminator, an extension
otherwise. -/
def decodeShort (fuel : Nat) (hash : Option (List UInt8)) (elems : List UInt8) :
    Except DecodeError Node := do
  let (kbuf, rest) ← (Rlp.splitString elems).mapError fun e => .plain (.rlp e)
  let flag : NodeFlag := ⟨hash, false⟩
  let key := compactToHex kbuf
  if hasTerm key then
    let (val, _) ← (Rlp.splitString rest).mapError fun e => .plain (.invalidValueNode e)
    return .short key (.value val) flag
  let (r, _) ← (decodeRef fuel rest).mapError (wrapError "val")
  return .short key r flag
termination_by (fuel, 1)

/-- `decodeFull(hash, elems)`: sixteen references, then the value, kept when not empty. -/
def decodeFull (fuel : Nat) (hash : Option (List UInt8)) (elems : List UInt8) :
    Except DecodeError Node := do
  let (cs, elems) ← (List.finRange 16).foldlM
    (fun (acc : (Fin 17 → Node) × List UInt8) (i : Fin 16) => do
      let (cld, rest) ← (decodeRef fuel acc.2).mapError (wrapError ("[" ++ toString i.val ++ "]"))
      return (Function.update acc.1 i.castSucc cld, rest))
    (emptyChildren, elems)
  let (val, _) ← (Rlp.splitString elems).mapError fun e => .plain (.rlp e)
  let cs := if val.length > 0 then Function.update cs 16 (.value val) else cs
  return .full cs ⟨hash, false⟩
termination_by (fuel, 1)

/-- `decodeRef(buf)`: the reference at the front of `buf` and the bytes after it. -/
def decodeRef (fuel : Nat) (buf : List UInt8) : Except DecodeError (Node × List UInt8) := do
  let (kind, val, rest) ← (Rlp.split buf).mapError fun e => .plain (.rlp e)
  if kind = .list then
    -- an embedded node, which must be smaller than a hash
    let size := buf.length - rest.length
    if size > hashLen then .error (.plain (.oversized size))
    else
      match fuel with
      | 0 => .error (.plain .depth)
      | fuel + 1 =>
        let n ← decodeNodeAux fuel none buf
        return (n, rest)
  else if val.length = 0 then return (.nil, rest)
  else if val.length = hashLen then return (.hash val, rest)
  else .error (.plain (.stringSize val.length))
termination_by (fuel, 0)

end

/-- `decodeNode(hash, buf)`. -/
def decodeNode (hash : Option (List UInt8)) (buf : List UInt8) : Except DecodeError Node :=
  decodeNodeAux buf.length hash buf

end GoMetadium.Trie
