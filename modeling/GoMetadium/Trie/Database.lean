import GoMetadium.Trie.Canonical
import GoMetadium.Trie.Decode
import GoMetadium.Trie.Hasher

set_option autoImplicit false

/-! # The trie database (`trie/database.go`)

The database keeps the nodes that `Trie.Commit` writes in its dirty cache, a map from hashes to
`cachedNode`s, each holding the node collapsed and with its flags cleared (`simplifyNode`: Go's
raw nodes are nodes with cleared flags here), a count of the nodes that point to it, and its
neighbours in the flush-list of insertion order. `db.node(hash)` gives a node back in memory
form (`expandNode`), from the dirty cache or else by decoding what the disk database holds.

The dirty cache starts with the metaroot under the zero hash. The clean cache is not modelled,
which is what `NewDatabase` gives (no cache); the size accounting and the metrics are left out.
-/

namespace GoMetadium.Trie

/-- `common.Hash{}`: the key of the metaroot, and the empty end of the flush-list. -/
def zeroHash : List UInt8 := List.replicate 32 0

/-- `simplifyNode(n)`: the node with the flags of all its nodes discarded. -/
def simplifyNode (n : Node) : Node := n.eraseFlags

/-- `expandNode(hash, n)`: a collapsed node in memory form again, its keys back in HEX, the hash
cached in the top node, every node clean. -/
def expandNode (hash : Option (List UInt8)) : Node → Node
  | .short k v _ => .short (compactToHex k) (expandNode none v) ⟨hash, false⟩
  | .full cs _ => .full (fun i => expandNode none (cs i)) ⟨hash, false⟩
  | n => n

/-- `forGatherChildren(n)`: the hashes of the hash nodes of a collapsed node, the 17th child
left out. -/
def gatherChildren : Node → List (List UInt8)
  | .short _ v _ => gatherChildren v
  | .full cs _ => (List.finRange 16).flatMap fun i => gatherChildren (cs i.castSucc)
  | .hash h => [h]
  | _ => []

/-- `cachedNode`: a node of the dirty cache, the number of live nodes pointing to it
(`uint32`), and its neighbours in the flush-list. -/
structure CachedNode where
  node : Node
  parents : Nat
  flushPrev : List UInt8
  flushNext : List UInt8

/-- `Database`: the dirty cache, the ends of the flush-list, and the disk database. -/
structure Database where
  dirties : List UInt8 → Option CachedNode
  oldest : List UInt8
  newest : List UInt8
  diskdb : List UInt8 → Option (List UInt8)

/-- The metaroot: no node, no parents. -/
def metaroot : CachedNode := ⟨.nil, 0, zeroHash, zeroHash⟩

/-- `NewDatabase(diskdb)`: the dirty cache holds the metaroot alone. -/
def newDatabase (diskdb : List UInt8 → Option (List UInt8)) : Database :=
  { dirties := fun h => if h = zeroHash then some metaroot else none
    oldest := zeroHash
    newest := zeroHash
    diskdb := diskdb }

/-- `c.parents++` for each child in the dirty cache, in order. -/
def bumpParents (dirties : List UInt8 → Option CachedNode) (children : List (List UInt8)) :
    List UInt8 → Option CachedNode :=
  children.foldl
    (fun d c => Function.update d c ((d c).map fun e => { e with parents := (e.parents + 1) % 2 ^ 32 }))
    dirties

/-- `db.insert(hash, blob, node)`: nothing when the hash is cached already; otherwise the node
simplified is cached at the new end of the flush-list, and its children present gain a
parent. -/
def Database.insert (db : Database) (hash : List UInt8) (node : Node) : Database :=
  if (db.dirties hash).isSome then db
  else
    let entry : CachedNode := ⟨simplifyNode node, 0, db.newest, zeroHash⟩
    let dirties := Function.update (bumpParents db.dirties (gatherChildren entry.node)) hash (some entry)
    if db.oldest = zeroHash then { db with dirties := dirties, oldest := hash, newest := hash }
    else
      { db with
        dirties := Function.update dirties db.newest
          ((dirties db.newest).map fun e => { e with flushNext := hash })
        newest := hash }

/-- The inserts `hasher.store` makes while committing, in order. -/
def Database.insertAll (db : Database) (writes : List Write) : Database :=
  writes.foldl (fun db w => db.insert w.hash w.node) db

/-- `cachedNode.obj(hash)`: the node expanded. The metaroot holds no node, which Go cannot
expand (it panics); the model reads it as none. -/
def CachedNode.obj (c : CachedNode) (hash : List UInt8) : Option Node :=
  if c.node.isNil then none else some (expandNode (some hash) c.node)

/-- `db.node(hash)`: from the dirty cache, or decoded from the disk database; a blob that does
not decode (a panic in `mustDecodeNode`) is read as none. -/
def Database.node (db : Database) (hash : List UInt8) : Option Node :=
  match db.dirties hash with
  | some c => c.obj hash
  | none => (db.diskdb hash).bind fun enc => (decodeNode (some hash) enc).toOption

/-! ## Parent counts -/

end GoMetadium.Trie
