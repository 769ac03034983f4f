import GoMetadium.Trie.Trie
import GoMetadium.Lib.Rlp

set_option autoImplicit false

/-! # Hashing and committing the trie (`trie/hasher.go`)

`hash` walks a node bottom-up. Each node is collapsed (`hashChildren`): its key to COMPACT and
each child to what `hash` made of it. The collapsed node is then stored (`store`): when its RLP
encoding has fewer than 32 bytes (and the caller does not force a hash, as for the root) it
stays inline in its parent, and otherwise it is replaced by its hash node, the Keccak-256
hash of the encoding. With a database (`commit`), such a node is also written to it. `hash`
returns the stored form and the node again with the hashes cached in its flags, and, with a
database, marked clean; a node whose flags already hold a hash is not walked again.

The hash function is a parameter, `keccak`. Hashes are its byte lists as they are, which is
what `common.BytesToHash` makes of Keccak-256's 32 bytes. The writes to the database are
returned in the order `store` makes them; `db.insert` performs them (`Database.lean`). The
callback for external references (`onleaf`) is not modelled.
-/

namespace GoMetadium.Trie

/-- The RLP item `rlp.Encode` writes for a node: a short node is the list of its key and
child; a full node the list of its 17 children, an unset one as an empty string
(`nilValueNode`); a hash or value node its bytes; a nil interface an empty list. -/
def Node.toItem : Node → Rlp.Item
  | .nil => .list []
  | .full cs _ => .list (List.ofFn fun i => if (cs i).isNil then .str [] else (cs i).toItem)
  | .short k v _ => .list [.str k, v.toItem]
  | .hash h => .str h
  | .value v => .str v

/-- `n.cache()`: the cached hash and the dirty flag of a short or full node; hash and value
nodes have none and count as dirty. -/
def Node.cache : Node → Option (List UInt8) × Bool
  | .full _ f => (f.hash, f.dirty)
  | .short _ _ f => (f.hash, f.dirty)
  | _ => (none, true)

/-- One `db.insert(hash, blob, node)`: a collapsed node, its encoding and its hash. -/
structure Write where
  hash : List UInt8
  blob : List UInt8
  node : Node

/-- A hash node's hash, if the node is one. -/
def Node.hashOf? : Node → Option (List UInt8)
  | .hash h => some h
  | _ => none

section Hasher

variable (keccak : List UInt8 → List UInt8)

/-- `emptyRoot`: the hash of the empty trie, the hash of the encoding of an empty string. -/
def emptyRoot : List UInt8 := keccak [0x80]

/-- `h.store(n, db, force)`: nil and hash nodes as they are; a node encoded in fewer than 32
bytes as it is unless `force`; any other node as its hash node, the cached hash if it has one,
written to the database when there is one (`commit`). -/
def store (commit : Bool) (n : Node) (force : Bool) : Node × List Write :=
  match n with
  | .nil => (n, [])
  | .hash _ => (n, [])
  | _ =>
    let enc := n.toItem.encode
    if enc.length < 32 ∧ force = false then (n, [])
    else
      let hash := n.cache.1.getD (keccak enc)
      (.hash hash, if commit then [⟨hash, enc, n⟩] else [])

/-- The first test of `h.hash` on a short or full node with the flags `f`: a cached hash is
returned as it is when not committing, and, with the node replaced by it, when the node is
clean. -/
def cachedResult (commit : Bool) (f : NodeFlag) (n : Node) : Option (Node × Node × List Write) :=
  match f.hash with
  | some h => if !commit then some (.hash h, n, []) else if !f.dirty then some (.hash h, .hash h, []) else none
  | none => none

/-- The flags `h.hash` gives the node it returns: the hash it stored the node under, if any,
and clean when committing. -/
def setCache (commit : Bool) (cachedHash : Option (List UInt8)) : Node → Node
  | .short k v f => .short k v ⟨cachedHash, if commit then false else f.dirty⟩
  | .full cs f => .full cs ⟨cachedHash, if commit then false else f.dirty⟩
  | n => n

/-- The end of `h.hash`: store the collapsed node and cache its hash in the returned node. -/
def storeAndCache (commit : Bool) (collapsed cached : Node) (writes : List Write) (force : Bool) :
    Node × Node × List Write :=
  let (hashed, w) := store keccak commit collapsed force
  (hashed, setCache commit hashed.hashOf? cached, writes ++ w)

/-- `h.hash(n, db, force)`: the stored form of the node, the node with its hashes cached, and
the writes to the database. The collapsing of `h.hashChildren` is written out in each case,
so that the recursion is on the children. -/
def hash (commit : Bool) (n : Node) (force : Bool) : Node × Node × List Write :=
  match n with
  | .short k v f =>
    match cachedResult commit f n with
    | some r => r
    | none =>
      -- the child is hashed unless it is a value
      let r := if v.isValue then (v, v, []) else hash commit v false
      storeAndCache keccak commit (.short (hexToCompact k) r.1 f) (.short k r.2.1 f) r.2.2 force
  | .full cs f =>
    match cachedResult commit f n with
    | some r => r
    | none =>
      -- the first 16 children that are set are hashed; the 17th is kept
      let r : Fin 17 → Node × Node × List Write := fun i =>
        if i.val < 16 ∧ !(cs i).isNil then hash commit (cs i) false else (cs i, cs i, [])
      storeAndCache keccak commit (.full (fun i => (r i).1) f) (.full (fun i => (r i).2.1) f)
        ((List.finRange 17).flatMap fun i => (r i).2.2) force
  | _ => storeAndCache keccak commit n n [] force

/-- `h.hashChildren(original, db)`: the node with its children replaced by what `hash` makes of
them and its key in COMPACT (the collapsed node), the node with the children's hashes cached,
and the writes. -/
def hashChildren (commit : Bool) (original : Node) : Node × Node × List Write :=
  match original with
  | .short k v f =>
    let r := if v.isValue then (v, v, []) else hash keccak commit v false
    (.short (hexToCompact k) r.1 f, .short k r.2.1 f, r.2.2)
  | .full cs f =>
    let r : Fin 17 → Node × Node × List Write := fun i =>
      if i.val < 16 ∧ !(cs i).isNil then hash keccak commit (cs i) false else (cs i, cs i, [])
    (.full (fun i => (r i).1) f, .full (fun i => (r i).2.1) f, (List.finRange 17).flatMap fun i => (r i).2.2)
  | n => (n, n, [])

/-- `t.hashRoot(db, onleaf)`: the empty root for an empty trie; otherwise the root hashed with
its hash forced. -/
def hashRoot (commit : Bool) (root : Node) : Node × Node × List Write :=
  if root.isNil then (.hash (emptyRoot keccak), .nil, []) else hash keccak commit root true

end Hasher

end GoMetadium.Trie
