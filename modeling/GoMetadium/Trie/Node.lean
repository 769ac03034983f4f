import GoMetadium.Trie.Encoding

set_option autoImplicit false

/-! # Trie nodes (`trie/node.go`)

A node is Go's `node` interface value: `nil`, a `*fullNode` with 17 children (one per nibble
and a 17th for a value that ends at the node), a `*shortNode` with a key fragment and one
child, a `hashNode` (the hash of a node not loaded yet) or a `valueNode`. Full and short
nodes carry a `nodeFlag`: the hash cached for them, if any, and whether they have changes
not yet committed.

The children of a full node are a function of their index, so that recursion into a child
is structural. A HEX nibble `b` selects the child `b` when `b ≤ 16`; Go indexes the array
with it and panics on a larger byte, which no HEX key holds.

Besides the nodes this file gives the meaning of a node with no hash node in it
(`Node.lookup`): the value it holds at the end of a HEX key. That is the map the trie
operations are specified against.
-/

namespace GoMetadium.Trie

/-- `nodeFlag`: the cached hash, if any, and whether the node has uncommitted changes. -/
structure NodeFlag where
  hash : Option (List UInt8)
  dirty : Bool
  deriving DecidableEq, Repr

/-- `t.newFlag()`: no hash, dirty. -/
def newFlag : NodeFlag := ⟨none, true⟩

/-- A trie node. -/
inductive Node where
  | nil
  | full (children : Fin 17 → Node) (flags : NodeFlag)
  | short (key : List UInt8) (val : Node) (flags : NodeFlag)
  | hash (h : List UInt8)
  | value (v : List UInt8)

/-- The seventeen children of a full node: the one instance behind the literals of `Fin 17`. -/
instance childCount_neZero : NeZero (17 : Nat) := ⟨by decide⟩

namespace Node

/-- `n == nil`. -/
def isNil : Node → Bool
  | .nil => true
  | _ => false

/-- Whether the node is a `*shortNode`. -/
def isShort : Node → Bool
  | .short .. => true
  | _ => false

/-- Whether the node is a `valueNode`. -/
def isValue : Node → Bool
  | .value _ => true
  | _ => false

/-- Whether the node is a `hashNode`. -/
def isHash : Node → Bool
  | .hash _ => true
  | _ => false

end Node

/-- The children of a `&fullNode{}`: all `nil`. -/
def emptyChildren : Fin 17 → Node := fun _ => .nil

/-- The child index a HEX byte selects; none for a byte Go's array index rejects. -/
def nibIndex (b : UInt8) : Option (Fin 17) :=
  if h : b.toNat < 17 then some ⟨b.toNat, h⟩ else none

/-- The index of a child as the byte `byte(pos)`. -/
def Fin.toByte (i : Fin 17) : UInt8 := UInt8.ofNat i.val

theorem toNat_toByte (i : Fin 17) : (Fin.toByte i).toNat = i.val :=
  UInt8.toNat_ofNat_of_lt' (by
    have hi := i.isLt
    change i.val < 256
    omega)

theorem nibIndex_toByte (i : Fin 17) : nibIndex (Fin.toByte i) = some i := by
  simp [nibIndex, toNat_toByte, i.isLt]

/-- Every index but the 17th is a nibble. -/
theorem toByte_lt_sixteen {i : Fin 17} (h : i ≠ 16) : Fin.toByte i < 16 := by
  rw [UInt8.lt_iff_toNat_lt]
  have hi : i.val ≠ 16 := fun h' => h (Fin.ext h')
  have := i.isLt
  change (Fin.toByte i).toNat < 16
  rw [toNat_toByte]
  omega

theorem toByte_injective : Function.Injective Fin.toByte := by
  intro i j h
  have := congrArg nibIndex h
  rwa [nibIndex_toByte, nibIndex_toByte, Option.some_inj] at this

theorem toByte_nibIndex {b : UInt8} {i : Fin 17} (h : nibIndex b = some i) : Fin.toByte i = b := by
  unfold nibIndex at h
  split at h
  · cases h
    exact UInt8.ofNat_toNat
  · cases h

theorem nibIndex_lt {b : UInt8} (h : b < 16) : ∃ i : Fin 17, nibIndex b = some i ∧ i.val < 16 := by
  have hb : b.toNat < 16 := UInt8.lt_iff_toNat_lt.mp h
  exact ⟨⟨b.toNat, by omega⟩, by simp [nibIndex, show b.toNat < 17 by omega], hb⟩

/-- The terminator selects the 17th child. -/
theorem nibIndex_sixteen : nibIndex 16 = some 16 := rfl

/-- The errors of the trie operations. -/
inductive TrieError where
  /-- `MissingNodeError`: the database has no node of this hash, met at this path. -/
  | missingNode (hash path : List UInt8)
  /-- A Go panic: an invalid node met, or an index past the end of a key. -/
  | invalid
  /-- Not Go: the bound the model puts on the depth of the recursion ran out. Go recurses on;
  the bound is enough for the tries the operations build (see the fuel lemmas). -/
  | depth
  deriving DecidableEq, Repr

/-! ## The meaning of a loaded node -/

namespace Node

/-- The value a node holds at the end of the HEX key `key`, reading a `nil` node, a hash node
and a key that runs out inside a node as no value. -/
def lookup : Node → List UInt8 → Option (List UInt8)
  | .nil, _ => none
  | .value v, [] => some v
  | .value _, _ :: _ => none
  | .short k v _, key => if k <+: key then lookup v (key.drop k.length) else none
  | .full _ _, [] => none
  | .full cs _, b :: key =>
    match nibIndex b with
    | some i => lookup (cs i) key
    | none => none
  | .hash _, _ => none

@[simp] theorem lookup_nil (key : List UInt8) : lookup .nil key = none := rfl

@[simp] theorem lookup_value_nil (v : List UInt8) : lookup (.value v) [] = some v := rfl

@[simp] theorem lookup_value_cons (v : List UInt8) (b : UInt8) (key : List UInt8) :
    lookup (.value v) (b :: key) = none := rfl

theorem lookup_short (k : List UInt8) (v : Node) (f : NodeFlag) (key : List UInt8) :
    lookup (.short k v f) key = if k <+: key then lookup v (key.drop k.length) else none := rfl

/-- A short node holds, under its key followed by `rest`, what its child holds under `rest`. -/
theorem lookup_short_append (k : List UInt8) (v : Node) (f : NodeFlag) (rest : List UInt8) :
    lookup (.short k v f) (k ++ rest) = lookup v rest := by
  simp [lookup_short]

theorem lookup_short_of_mismatch {k : List UInt8} (v : Node) (f : NodeFlag) {key : List UInt8}
    (h : ¬ k <+: key) : lookup (.short k v f) key = none := by
  simp [lookup_short, h]

theorem lookup_full_cons (cs : Fin 17 → Node) (f : NodeFlag) (i : Fin 17) (key : List UInt8) :
    lookup (.full cs f) (Fin.toByte i :: key) = lookup (cs i) key := by
  simp [lookup, nibIndex_toByte]

@[simp] theorem lookup_full_nil (cs : Fin 17 → Node) (f : NodeFlag) : lookup (.full cs f) [] = none :=
  rfl

end Node

end GoMetadium.Trie
