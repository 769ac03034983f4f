import GoMetadium.Lib.AListSum
import GoMetadium.Lib.Except
import GoMetadium.Trie.Database

set_option autoImplicit false

/-! # The memory accounting of the trie database (`trie/database.go`)

`GoMetadium.Trie.Database` models the dirty cache as it holds nodes. This module models it with
what it counts: each `cachedNode` has the byte size of its blob (`uint16`) and, once it
references an external child, a map of such children with a count each (`uint16`); the
database keeps `dirtiesSize`, the hash and blob sizes of its nodes but the metaroot, and
`childrenSize`, the reference maps. `Cap` and `Size` report their sum with the nodes' metadata.
The mutators are `insert`, `reference`, `dereference`, `Cap` and `Commit`, whose batch is replayed
into `cleaner.Put`.

Go's maps become `AList`s, whose order stands for Go's order of iteration. A write to a field of
a node that is not cached, which panics in Go, makes a mutator return `none`, and so does the
exhaustion of the bound on a recursion or a loop. `StorageSize` is a `float64`; the counters are
integers well below `2 ^ 53`, so `Int` computes what it computes.

What the counters count (`nodeCost`, `childrenCost`) leaves out the metaroot's map, which
`NewDatabase` makes and never counts. Most writes change only parents or links (`Relinked`),
which leave the counts alone; the proofs follow the few that do not. The results:
* `insert` and `reference` keep both counters exact along every run from `NewDatabase` in which
  no `uint16` wraps (`reachable_exact`).
* `cleaner.Put` takes the reference map of the node it removes off `dirtiesSize`, where `Cap`
  and `dereference` take it off `childrenSize` (`cleanerPut_drift`). So `Commit` keeps the sum
  of the counters exact (`commitRoot_totalDrift`), and with it what `Cap` and `Size` report,
  but not each of them (`commit_drifts_sizes`).
-/

namespace GoMetadium.Trie.Memory

/-! ## Sizes -/

/-- `common.HashLength`. -/
def hashLength : Nat := 32

/-- `cachedNodeChildrenSize`: an empty map of external references. -/
def cachedNodeChildrenSize : Nat := 48

/-- `cachedNodeSize`, the size of a `cachedNode` on a 64-bit platform: an interface (16 bytes), a
`uint16` padded to 4, a `uint32`, a map pointer (8) and two hashes (64). -/
def cachedNodeSize : Nat := 96

/-- `ethdb.IdealBatchSize`. -/
def idealBatchSize : Nat := 100 * 1024

/-! ## The database -/

/-- A Go map keyed by hashes. -/
abbrev HashMap (α : Type) := AList fun _ : List UInt8 => α

/-- `cachedNode`: the node, the byte size of its blob (`uint16`), the number of nodes pointing to
it (`uint32`), the external children it references with a count each (`uint16`), `none` until
the first, and its neighbours in the flush-list. -/
structure CachedNode where
  node : Node
  size : Nat
  parents : Nat
  children : Option (HashMap Nat)
  flushPrev : List UInt8
  flushNext : List UInt8

/-- `Database`: the dirty cache, the ends of the flush-list, and the two counters. -/
structure Database where
  dirties : HashMap CachedNode
  oldest : List UInt8
  newest : List UInt8
  dirtiesSize : Int
  childrenSize : Int

/-- The metaroot: no node, and a map of the roots it keeps, empty. -/
def metaroot : CachedNode := ⟨.nil, 0, 0, some ∅, zeroHash, zeroHash⟩

/-- `NewDatabase(diskdb)`: the metaroot alone, and nothing counted. -/
def newDatabase : Database := ⟨(∅ : HashMap CachedNode).insert zeroHash metaroot, zeroHash, zeroHash, 0, 0⟩

/-- `db.dirties[hash].f = ...`: a write to a field of a cached node. -/
def Database.update (db : Database) (hash : List UInt8) (f : CachedNode → CachedNode) :
    Option Database :=
  (db.dirties.lookup hash).map fun n => { db with dirties := db.dirties.insert hash (f n) }

/-- What `n.forChilds` visits: the external children, then the hash nodes inside the node. -/
def CachedNode.childHashes (n : CachedNode) : List (List UInt8) :=
  (n.children.map AList.keys).getD [] ++ gatherChildren n.node

/-- What a reference map takes: the empty map and `HashLength` and a `uint16` per child. -/
def mapSize (m : HashMap Nat) : Nat := cachedNodeChildrenSize + m.keys.length * (hashLength + 2)

/-! ## `insert` -/

/-- `c.parents++` (`uint32`) when the child `c` is cached. -/
def bumpParent (dirties : HashMap CachedNode) (c : List UInt8) : HashMap CachedNode :=
  match dirties.lookup c with
  | some n => dirties.insert c { n with parents := (n.parents + 1) % 2 ^ 32 }
  | none => dirties

/-- `entry.forChilds(...)` in `insert`: a parent more for each child that is cached. -/
def bumpParents (dirties : HashMap CachedNode) (children : List (List UInt8)) : HashMap CachedNode :=
  children.foldl bumpParent dirties

/-- `db.insert(hash, blob, node)`: nothing when the hash is cached; otherwise the node simplified
at the new end of the flush-list, its cached children with a parent more, and `HashLength`
and its size counted, a `uint16` sum. -/
def Database.insert (db : Database) (hash blob : List UInt8) (node : Node) : Option Database :=
  if hash ∈ db.dirties then some db
  else do
    let entry : CachedNode := ⟨simplifyNode node, blob.length % 2 ^ 16, 0, none, db.newest, zeroHash⟩
    let dirties := (bumpParents db.dirties (gatherChildren entry.node)).insert hash entry
    let db ←
      if db.oldest = zeroHash then some { db with dirties, oldest := hash, newest := hash }
      else
        (({ db with dirties } : Database).update db.newest fun n => { n with flushNext := hash }).map
          fun db => { db with newest := hash }
    some { db with dirtiesSize := db.dirtiesSize + ((hashLength + entry.size) % 2 ^ 16 : Nat) }

/-! ## `reference` -/

/-- The end of `db.reference(child, parent)`: the child gains a parent, the parent's count for it
goes up (`uint16`), and a count that reaches one is counted in `childrenSize`. -/
def Database.addReference (db : Database) (child parent : List UInt8) : Option Database := do
  let db ← db.update child fun n => { n with parents := (n.parents + 1) % 2 ^ 32 }
  let p ← db.dirties.lookup parent
  let children := p.children.getD ∅
  let count := ((children.lookup child).getD 0 + 1) % 2 ^ 16
  let db ← db.update parent fun n => { n with children := some (children.insert child count) }
  some (if count = 1 then { db with childrenSize := db.childrenSize + (hashLength + 2 : Nat) } else db)

/-- `db.reference(child, parent)`: nothing for a child that is not cached; the parent's map is
made on its first reference, and a child it references already is referenced again only from
the metaroot. -/
def Database.reference (db : Database) (child parent : List UInt8) : Option Database :=
  if child ∉ db.dirties then some db
  else do
    let p ← db.dirties.lookup parent
    match p.children with
    | none =>
      let db ← db.update parent fun n => { n with children := some ∅ }
      ({ db with childrenSize := db.childrenSize + (cachedNodeChildrenSize : Nat) } : Database).addReference
        child parent
    | some children =>
      if child ∈ children ∧ parent ≠ zeroHash then some db else db.addReference child parent

/-! ## `dereference` -/

/-- The removal of the node `n` at `hash` from the flush-list, in `dereference` and
`cleaner.Put`. -/
def Database.unlink (db : Database) (hash : List UInt8) (n : CachedNode) : Option Database :=
  if hash = db.oldest then
    ({ db with oldest := n.flushNext } : Database).update n.flushNext fun m => { m with flushPrev := zeroHash }
  else if hash = db.newest then
    ({ db with newest := n.flushPrev } : Database).update n.flushPrev fun m => { m with flushNext := zeroHash }
  else do
    let db ← db.update n.flushPrev fun m => { m with flushNext := n.flushNext }
    db.update n.flushNext fun m => { m with flushPrev := n.flushPrev }

/-- The first step of `db.dereference(child, parent)`: the parent's count for the child goes
down, and a count that reaches zero leaves the map and `childrenSize`. -/
def Database.dropReference (db : Database) (child parent : List UInt8) : Option Database := do
  let p ← db.dirties.lookup parent
  match p.children with
  | none => some db
  | some children =>
    let count := (children.lookup child).getD 0
    if count = 0 then some db
    else if count - 1 = 0 then do
      let db ← db.update parent fun n => { n with children := some (children.erase child) }
      some { db with childrenSize := db.childrenSize - (hashLength + 2 : Nat) }
    else db.update parent fun n => { n with children := some (children.insert child (count - 1)) }

/-- `db.dereference(child, parent)`, its recursion bounded by `fuel`: a child with no parent
left leaves the flush-list, its children are dereferenced, and it leaves the cache. The
children are those of the map as the iteration starts; Go's `range` would skip one that a
recursive call removed first, which only a call on this node itself does. -/
def Database.dereference : Nat → Database → List UInt8 → List UInt8 → Option Database
  | 0, _, _, _ => none
  | fuel + 1, db, child, parent => do
    let db ← db.dropReference child parent
    match db.dirties.lookup child with
    | none => some db
    | some n =>
      -- a node reinjected from disk may have no parent; it is not counted below zero
      let n := if n.parents > 0 then { n with parents := n.parents - 1 } else n
      let db ← db.update child fun _ => n
      if n.parents = 0 then do
        let db ← db.unlink child n
        let db ← n.childHashes.foldlM (fun db h => Database.dereference fuel db h child) db
        some { db with
          dirties := db.dirties.erase child
          dirtiesSize := db.dirtiesSize - (hashLength + n.size : Nat)
          childrenSize :=
            if n.children.isSome then db.childrenSize - (cachedNodeChildrenSize : Nat) else db.childrenSize }
      else some db

/-- `Dereference(root)`: the metaroot is never dereferenced. -/
def Database.dereferenceRoot (db : Database) (fuel : Nat) (root : List UInt8) : Option Database :=
  if root = zeroHash then some db else db.dereference fuel root zeroHash

/-! ## `Cap` -/

/-- The memory `Cap` and `Size` compute: the counters, the metadata of each node but the
metaroot, and the metaroot's references taken out. -/
def Database.memorySize (db : Database) : Option Int := do
  let mr ← db.dirties.lookup zeroHash
  some (db.dirtiesSize + ((db.dirties.keys.length - 1) * cachedNodeSize : Nat) + db.childrenSize -
    ((mr.children.map fun m => m.keys.length).getD 0 * (hashLength + 2) : Nat))

/-- The first loop of `Cap`: the flush-list walked from `oldest` while the memory is above the
limit, the node's sizes taken off; where it stops is where flushing stops. Each round takes at
least `HashLength + cachedNodeSize` off, which bounds the rounds. -/
def capWalk (dirties : HashMap CachedNode) (limit : Int) : Nat → Int → List UInt8 → Option (List UInt8)
  | 0, _, _ => none
  | fuel + 1, size, oldest =>
    if size > limit ∧ oldest ≠ zeroHash then do
      let n ← dirties.lookup oldest
      let size := size - (hashLength + n.size + cachedNodeSize : Nat) -
        ((n.children.map mapSize).getD 0 : Nat)
      capWalk dirties limit fuel size n.flushNext
    else some oldest

/-- The second loop of `Cap`: the nodes from the oldest up to `oldest` leave the cache and the
counters. -/
def Database.uncache : Nat → Database → List UInt8 → Option Database
  | 0, _, _ => none
  | fuel + 1, db, oldest =>
    if db.oldest = oldest then some db
    else do
      let n ← db.dirties.lookup db.oldest
      Database.uncache fuel
        { db with
          dirties := db.dirties.erase db.oldest
          oldest := n.flushNext
          dirtiesSize := db.dirtiesSize - (hashLength + n.size : Nat)
          childrenSize := db.childrenSize - ((n.children.map mapSize).getD 0 : Nat) }
        oldest

/-- `db.Cap(limit)`: flush the oldest nodes until the memory is below `limit`. -/
def Database.cap (db : Database) (limit : Int) : Option Database := do
  let size ← db.memorySize
  -- the rounds the walk can make, rounded up, and one more for the test that ends it
  let rounds := ((size - limit).toNat + (hashLength + cachedNodeSize) - 1) / (hashLength + cachedNodeSize)
  let oldest ← capWalk db.dirties limit (rounds + 1) size db.oldest
  let db ← db.uncache (db.dirties.keys.length + 1) oldest
  if db.oldest ≠ zeroHash then db.update db.oldest fun n => { n with flushPrev := zeroHash }
  else some db

/-! ## `Commit` -/

/-- `cleaner.Put(key, rlp)`: a node written to disk leaves the flush-list and the cache, and its
size and the size of its reference map are taken off `dirtiesSize`. -/
def Database.cleanerPut (db : Database) (hash : List UInt8) : Option Database :=
  match db.dirties.lookup hash with
  | none => some db
  | some n => do
    let db ← db.unlink hash n
    some { db with
      dirties := db.dirties.erase hash
      dirtiesSize := db.dirtiesSize - (hashLength + n.size : Nat) - ((n.children.map mapSize).getD 0 : Nat) }

/-- `batch.Replay(uncacher)`: `cleaner.Put` for each key of the batch, in order. -/
def Database.replay (db : Database) (keys : List (List UInt8)) : Option Database :=
  keys.foldlM Database.cleanerPut db

/-- A batch of writes: the keys in order, and the size of the values. -/
structure Batch where
  keys : List (List UInt8)
  size : Nat

/-- `db.commit(hash, batch, uncacher)`, its recursion bounded by `fuel`: the children first,
then the node's encoding into the batch; a batch of the ideal size is written and replayed. -/
def Database.commit : Nat → Database × Batch → List UInt8 → Option (Database × Batch)
  | 0, _, _ => none
  | fuel + 1, (db, batch), hash =>
    match db.dirties.lookup hash with
    | none => some (db, batch)
    | some n => do
      let (db, batch) ← n.childHashes.foldlM (fun st c => Database.commit fuel st c) (db, batch)
      let batch : Batch := ⟨batch.keys ++ [hash], batch.size + n.node.toItem.encode.length⟩
      if batch.size ≥ idealBatchSize then do
        let db ← db.replay batch.keys
        some (db, ⟨[], 0⟩)
      else some (db, batch)

/-- `db.Commit(node, report)`: commit the trie below `node`, then replay what is left. -/
def Database.commitRoot (db : Database) (fuel : Nat) (node : List UInt8) : Option Database := do
  let (db, batch) ← Database.commit fuel (db, ⟨[], 0⟩) node
  db.replay batch.keys

/-! ## What the counters count -/

/-- What a node adds to `dirtiesSize`: its hash and its blob; the metaroot adds nothing. -/
def nodeCost (hash : List UInt8) (n : CachedNode) : Int :=
  if hash = zeroHash then 0 else (hashLength + n.size : Nat)

/-- What a node adds to `childrenSize`: its reference map; of the metaroot's map, which
`NewDatabase` makes and never counts, only the entries. -/
def childrenCost (hash : List UInt8) (n : CachedNode) : Int :=
  match n.children with
  | none => 0
  | some m => if hash = zeroHash then (m.keys.length * (hashLength + 2) : Nat) else (mapSize m : Nat)

/-- The sizes of the cached nodes. -/
def Database.dirtiesTotal (db : Database) : Int := db.dirties.sumBy nodeCost

/-- The sizes of the reference maps. -/
def Database.childrenTotal (db : Database) : Int := db.dirties.sumBy childrenCost

/-- How far `dirtiesSize` and `childrenSize` are from what they count. -/
def Database.drift (db : Database) : Int × Int :=
  (db.dirtiesSize - db.dirtiesTotal, db.childrenSize - db.childrenTotal)

/-- Both counters are what they count. -/
def Database.Exact (db : Database) : Prop := db.drift = (0, 0)

instance (db : Database) : Decidable db.Exact := inferInstanceAs (Decidable (db.drift = (0, 0)))

/-- The counts of a reference map are nonzero `uint16`s. -/
def CountsOk (m : HashMap Nat) : Prop := ∀ c k, m.lookup c = some k → 0 < k ∧ k < 2 ^ 16

/-- What `NewDatabase` sets up and the mutators keep: the metaroot is cached with its map, and
every count is a nonzero `uint16`. -/
structure Database.Wf (db : Database) : Prop where
  metaroot : ∃ n, db.dirties.lookup zeroHash = some n ∧ n.children.isSome
  counts : ∀ hash n m, db.dirties.lookup hash = some n → n.children = some m → CountsOk m

theorem newDatabase_exact : newDatabase.Exact := by decide

theorem newDatabase_wf : newDatabase.Wf where
  metaroot := ⟨metaroot, rfl, rfl⟩
  counts := by
    intro hash n m hn hm
    have hd : newDatabase.dirties = (∅ : HashMap CachedNode).insert zeroHash metaroot := rfl
    by_cases hhash : hash = zeroHash
    · -- the metaroot, whose map is empty
      rw [hd, hhash, AList.lookup_insert, Option.some.injEq] at hn
      subst hn
      rw [show metaroot.children = some ∅ from rfl, Option.some.injEq] at hm
      subst hm
      intro c k hk
      simp at hk
    · rw [hd, AList.lookup_insert_ne hhash] at hn
      simp at hn

/-! ## Writes to parents and links

Most writes of the mutators change only a node's count of parents or its links in the
flush-list. They leave what the counters count, and what the walks visit, alone: `SameData`
says so of two caches, and `Relinked` of two databases. -/

/-- What the counters and the walks read of a node: the node, its size and its map. -/
def CachedNode.data (n : CachedNode) : Node × Nat × Option (HashMap Nat) := (n.node, n.size, n.children)

/-- A write that leaves the data of a node alone. -/
def Keeps (f : CachedNode → CachedNode) : Prop := ∀ n, (f n).data = n.data

/-- Two caches hold the same data under every hash. -/
def SameData (d d' : HashMap CachedNode) : Prop :=
  ∀ k, (d.lookup k).map CachedNode.data = (d'.lookup k).map CachedNode.data

theorem SameData.refl (d : HashMap CachedNode) : SameData d d := fun _ => rfl

theorem SameData.symm {d d' : HashMap CachedNode} (h : SameData d d') : SameData d' d :=
  fun k => (h k).symm

theorem SameData.trans {d₁ d₂ d₃ : HashMap CachedNode} (h₁ : SameData d₁ d₂) (h₂ : SameData d₂ d₃) :
    SameData d₁ d₃ :=
  fun k => (h₁ k).trans (h₂ k)

theorem SameData.exists_lookup {d d' : HashMap CachedNode} (h : SameData d d') {k : List UInt8}
    {n : CachedNode} (hn : d.lookup k = some n) : ∃ n', d'.lookup k = some n' ∧ n'.data = n.data := by
  have hk := h k
  rw [hn, Option.map_some] at hk
  exact Option.map_eq_some_iff.mp hk.symm

theorem SameData.mem_iff {d d' : HashMap CachedNode} (h : SameData d d') (k : List UInt8) :
    k ∈ d ↔ k ∈ d' := by
  rw [← AList.lookup_isSome, ← AList.lookup_isSome, ← Option.isSome_map (f := CachedNode.data), h k,
    Option.isSome_map]

theorem nodeCost_congr {n n' : CachedNode} (h : n.data = n'.data) (hash : List UInt8) :
    nodeCost hash n = nodeCost hash n' := by
  have hs : n.size = n'.size := congrArg (fun x => x.2.1) h
  rw [nodeCost, nodeCost, hs]

theorem childrenCost_congr {n n' : CachedNode} (h : n.data = n'.data) (hash : List UInt8) :
    childrenCost hash n = childrenCost hash n' := by
  have hc : n.children = n'.children := congrArg (fun x => x.2.2) h
  rw [childrenCost, childrenCost, hc]

theorem childHashes_congr {n n' : CachedNode} (h : n.data = n'.data) : n.childHashes = n'.childHashes := by
  have hn : n.node = n'.node := congrArg (fun x => x.1) h
  have hc : n.children = n'.children := congrArg (fun x => x.2.2) h
  rw [CachedNode.childHashes, CachedNode.childHashes, hn, hc]

theorem SameData.sumBy_nodeCost {d d' : HashMap CachedNode} (h : SameData d d') :
    d.sumBy nodeCost = d'.sumBy nodeCost :=
  AList.sumBy_congr CachedNode.data (fun a _ _ hb => nodeCost_congr hb a) h

theorem SameData.sumBy_childrenCost {d d' : HashMap CachedNode} (h : SameData d d') :
    d.sumBy childrenCost = d'.sumBy childrenCost :=
  AList.sumBy_congr CachedNode.data (fun a _ _ hb => childrenCost_congr hb a) h

theorem sameData_insert {f : CachedNode → CachedNode} (hf : Keeps f) {d : HashMap CachedNode}
    {hash : List UInt8} {n : CachedNode} (hn : d.lookup hash = some n) : SameData (d.insert hash (f n)) d := by
  intro k
  by_cases hk : k = hash
  · subst hk
    rw [AList.lookup_insert, hn, Option.map_some, Option.map_some, hf n]
  · rw [AList.lookup_insert_ne hk]

theorem bumpParent_sameData (d : HashMap CachedNode) (c : List UInt8) : SameData (bumpParent d c) d := by
  unfold bumpParent
  cases hc : d.lookup c with
  | none => exact SameData.refl d
  | some n => exact sameData_insert (f := fun n => { n with parents := (n.parents + 1) % 2 ^ 32 }) (fun _ => rfl) hc

/-- The parents `insert` bumps are a fold of `bumpParent`, by induction on the children. -/
theorem bumpParents_sameData (d : HashMap CachedNode) (cs : List (List UInt8)) :
    SameData (bumpParents d cs) d := by
  induction cs generalizing d with
  | nil => exact SameData.refl d
  | cons c cs ih =>
    show SameData (bumpParents (bumpParent d c) cs) d
    exact (ih _).trans (bumpParent_sameData d c)

/-- `db'` is `db` with at most the parents and the links of its nodes and the ends of the
flush-list rewritten. -/
structure Database.Relinked (db' db : Database) : Prop where
  data : SameData db'.dirties db.dirties
  dirtiesSize : db'.dirtiesSize = db.dirtiesSize
  childrenSize : db'.childrenSize = db.childrenSize

theorem Database.Relinked.refl (db : Database) : db.Relinked db := ⟨SameData.refl _, rfl, rfl⟩

theorem Database.Relinked.trans {db₁ db₂ db₃ : Database} (h₁ : db₁.Relinked db₂) (h₂ : db₂.Relinked db₃) :
    db₁.Relinked db₃ :=
  ⟨h₁.data.trans h₂.data, h₁.dirtiesSize.trans h₂.dirtiesSize, h₁.childrenSize.trans h₂.childrenSize⟩

theorem Database.Relinked.drift {db' db : Database} (h : db'.Relinked db) : db'.drift = db.drift := by
  rw [Database.drift, Database.drift, Database.dirtiesTotal, Database.dirtiesTotal, Database.childrenTotal,
    Database.childrenTotal, h.data.sumBy_nodeCost, h.data.sumBy_childrenCost, h.dirtiesSize, h.childrenSize]

/-- The invariant reads the data of the nodes only. -/
theorem Database.Wf.of_sameData {db' db : Database} (h : SameData db'.dirties db.dirties) (hwf : db.Wf) :
    db'.Wf where
  metaroot := by
    obtain ⟨n, hn, hc⟩ := hwf.metaroot
    obtain ⟨n', hn', hd⟩ := h.symm.exists_lookup hn
    have hc' : n'.children = n.children := congrArg (fun x => x.2.2) hd
    exact ⟨n', hn', hc' ▸ hc⟩
  counts := by
    intro hash n' m hn' hm
    obtain ⟨n, hn, hd⟩ := h.exists_lookup hn'
    have hc : n.children = n'.children := congrArg (fun x => x.2.2) hd
    exact hwf.counts hash n m hn (hc.trans hm)

theorem update_eq_some {db db' : Database} {hash : List UInt8} {f : CachedNode → CachedNode} :
    db.update hash f = some db' ↔
      ∃ n, db.dirties.lookup hash = some n ∧ db' = { db with dirties := db.dirties.insert hash (f n) } := by
  unfold Database.update
  rw [Option.map_eq_some_iff]
  constructor
  · rintro ⟨n, hn, h⟩
    exact ⟨n, hn, h.symm⟩
  · rintro ⟨n, hn, h⟩
    exact ⟨n, hn, h.symm⟩

theorem update_relinked {f : CachedNode → CachedNode} {db db' : Database} {hash : List UInt8}
    (h : db.update hash f = some db') (hf : Keeps f) : db'.Relinked db := by
  obtain ⟨n, hn, rfl⟩ := update_eq_some.mp h
  exact ⟨sameData_insert hf hn, rfl, rfl⟩

/-- Taking a node out of the flush-list rewrites links only. -/
theorem unlink_relinked {db db' : Database} {hash : List UInt8} {n : CachedNode}
    (h : db.unlink hash n = some db') : db'.Relinked db := by
  unfold Database.unlink at h
  split_ifs at h with hold hnew
  · -- the write is to the database with its new oldest node, which keeps the rest
    exact (update_relinked h fun _ => rfl).trans ⟨SameData.refl _, rfl, rfl⟩
  · exact (update_relinked h fun _ => rfl).trans ⟨SameData.refl _, rfl, rfl⟩
  · obtain ⟨db₁, h₁, h₂⟩ := Option.bind_eq_some_iff.mp h
    exact (update_relinked h₂ fun _ => rfl).trans (update_relinked h₁ fun _ => rfl)

/-! ## `cleaner.Put` and `Commit` -/

theorem nodeCost_of_ne {hash : List UInt8} (hne : hash ≠ zeroHash) (n : CachedNode) :
    nodeCost hash n = (hashLength + n.size : Nat) := by
  rw [nodeCost, if_neg hne]

theorem childrenCost_of_ne {hash : List UInt8} (hne : hash ≠ zeroHash) (n : CachedNode) :
    childrenCost hash n = ((n.children.map mapSize).getD 0 : Nat) := by
  unfold childrenCost
  cases n.children with
  | none => rfl
  | some m => exact if_neg hne

/-- `cleaner.Put` takes the reference map of the node it removes off `dirtiesSize`: what the map
takes moves from the drift of `childrenSize` to that of `dirtiesSize`. -/
theorem cleanerPut_drift {db db' : Database} {hash : List UInt8} {n : CachedNode} (hne : hash ≠ zeroHash)
    (hn : db.dirties.lookup hash = some n) (h : db.cleanerPut hash = some db') :
    db'.drift = (db.drift.1 - ((n.children.map mapSize).getD 0 : Nat),
      db.drift.2 + ((n.children.map mapSize).getD 0 : Nat)) := by
  rw [Database.cleanerPut, hn] at h
  obtain ⟨db₁, h₁, h₂⟩ := Option.bind_eq_some_iff.mp h
  rw [Option.some.injEq] at h₂
  subst h₂
  -- the node is still cached after the unlink, with the same data
  have hrel := unlink_relinked h₁
  obtain ⟨n₁, hn₁, hd⟩ := hrel.data.symm.exists_lookup hn
  have hdrift := hrel.drift
  have hnode : nodeCost hash n₁ = (hashLength + n.size : Nat) := by
    rw [nodeCost_congr hd, nodeCost_of_ne hne]
  have hchildren : childrenCost hash n₁ = ((n.children.map mapSize).getD 0 : Nat) := by
    rw [childrenCost_congr hd, childrenCost_of_ne hne]
  simp only [Database.drift, Database.dirtiesTotal, Database.childrenTotal, Prod.mk.injEq] at hdrift ⊢
  rw [AList.sumBy_erase hn₁, AList.sumBy_erase hn₁, hnode, hchildren]
  omega

/-- The sum of the two drifts: what `Cap` and `Size` report is off by it. -/
def Database.totalDrift (db : Database) : Int := db.drift.1 + db.drift.2

/-- `cleaner.Put` of a hash but the metaroot's keeps the sum of the counters exact. -/
theorem cleanerPut_totalDrift {db db' : Database} {hash : List UInt8} (hne : hash ≠ zeroHash)
    (h : db.cleanerPut hash = some db') : db'.totalDrift = db.totalDrift := by
  cases hn : db.dirties.lookup hash with
  | none =>
    rw [Database.cleanerPut, hn, Option.some.injEq] at h
    rw [h]
  | some n =>
    rw [Database.totalDrift, Database.totalDrift, cleanerPut_drift hne hn h]
    ring

/-- No cached node has the zero hash for a child, so a commit never reaches the metaroot. -/
def Database.NoZeroChild (db : Database) : Prop :=
  ∀ hash n, db.dirties.lookup hash = some n → zeroHash ∉ n.childHashes

theorem Database.Relinked.noZeroChild {db' db : Database} (h : db'.Relinked db) (hz : db.NoZeroChild) :
    db'.NoZeroChild := by
  intro hash n' hn'
  obtain ⟨n, hn, hd⟩ := h.data.exists_lookup hn'
  rw [← childHashes_congr hd]
  exact hz hash n hn

theorem cleanerPut_noZeroChild {db db' : Database} {hash : List UInt8} (hz : db.NoZeroChild)
    (h : db.cleanerPut hash = some db') : db'.NoZeroChild := by
  cases hn : db.dirties.lookup hash with
  | none =>
    rw [Database.cleanerPut, hn, Option.some.injEq] at h
    exact h ▸ hz
  | some n =>
    rw [Database.cleanerPut, hn] at h
    obtain ⟨db₁, h₁, h₂⟩ := Option.bind_eq_some_iff.mp h
    rw [Option.some.injEq] at h₂
    subst h₂
    have hz₁ := (unlink_relinked h₁).noZeroChild hz
    intro k n' hk
    by_cases hkh : k = hash
    · rw [hkh, AList.lookup_erase] at hk
      cases hk
    · rw [AList.lookup_erase_ne hkh] at hk
      exact hz₁ k n' hk

/-- What a run of `commit` keeps: no zero hash in the batch or under a cached node, and the sum
of the drifts. -/
def CommitInv (c : Int) (st : Database × Batch) : Prop :=
  zeroHash ∉ st.2.keys ∧ st.1.NoZeroChild ∧ st.1.totalDrift = c

/-- Replaying a batch without the zero hash keeps the invariant, by induction on the keys. -/
theorem replay_inv {c : Int} {keys : List (List UInt8)} {db db' : Database} (hk : zeroHash ∉ keys)
    (hinv : db.NoZeroChild ∧ db.totalDrift = c) (h : db.replay keys = some db') :
    db'.NoZeroChild ∧ db'.totalDrift = c := by
  apply Option.foldlM_invariant (fun db : Database => db.NoZeroChild ∧ db.totalDrift = c) _ hinv h
  intro key hkey d d' hd hput
  have hne : key ≠ zeroHash := fun heq => hk (heq ▸ hkey)
  exact ⟨cleanerPut_noZeroChild hd.1 hput, (cleanerPut_totalDrift hne hput).trans hd.2⟩

/-- `commit` keeps the invariant: by induction on the bound, the children by the induction
hypothesis, then the node into the batch, and a replay by `replay_inv`. -/
theorem commit_inv {c : Int} :
    ∀ (fuel : Nat) {st st' : Database × Batch} {hash : List UInt8}, hash ≠ zeroHash → CommitInv c st →
      Database.commit fuel st hash = some st' → CommitInv c st'
  | 0, _, _, _, _, _, h => by cases h
  | fuel + 1, (db, batch), st', hash, hne, hinv, h => by
    rw [Database.commit] at h
    cases hn : db.dirties.lookup hash with
    | none =>
      rw [hn, Option.some.injEq] at h
      exact h ▸ hinv
    | some n =>
      rw [hn] at h
      obtain ⟨⟨db₁, batch₁⟩, hchildren, h⟩ := Option.bind_eq_some_iff.mp h
      -- the children are not the zero hash, and each commit keeps the invariant
      have hinv₁ : CommitInv c (db₁, batch₁) := by
        apply Option.foldlM_invariant (CommitInv c) _ hinv hchildren
        intro child hchild st₁ st₂ h₁ h₂
        have hne' : child ≠ zeroHash := fun heq => hinv.2.1 hash n hn (heq ▸ hchild)
        exact commit_inv fuel hne' h₁ h₂
      have hkeys : zeroHash ∉ batch₁.keys ++ [hash] := by
        rw [List.mem_append, List.mem_singleton, not_or]
        exact ⟨hinv₁.1, fun heq => hne heq.symm⟩
      dsimp only at h
      split_ifs at h with hfull
      · obtain ⟨db₂, h₂, h₃⟩ := Option.bind_eq_some_iff.mp h
        rw [Option.some.injEq] at h₃
        subst h₃
        obtain ⟨hz₂, htotal₂⟩ := replay_inv hkeys ⟨hinv₁.2.1, hinv₁.2.2⟩ h₂
        exact ⟨List.not_mem_nil, hz₂, htotal₂⟩
      · rw [Option.some.injEq] at h
        subst h
        exact ⟨hkeys, hinv₁.2.1, hinv₁.2.2⟩

/-- `Commit` of a root keeps the sum of the two counters exact, and so what `Cap` and `Size`
report, when no cached node has the zero hash for a child. -/
theorem commitRoot_totalDrift {db db' : Database} {fuel : Nat} {node : List UInt8} (hnode : node ≠ zeroHash)
    (hz : db.NoZeroChild) (h : db.commitRoot fuel node = some db') : db'.totalDrift = db.totalDrift := by
  obtain ⟨⟨db₁, batch₁⟩, h₁, h₂⟩ := Option.bind_eq_some_iff.mp h
  have hinv₁ := commit_inv fuel hnode ⟨List.not_mem_nil, hz, rfl⟩ h₁
  exact (replay_inv hinv₁.1 ⟨hinv₁.2.1, hinv₁.2.2⟩ h₂).2

/-- A cache without the zero hash under any node can be checked entry by entry. -/
theorem noZeroChild_iff {db : Database} :
    db.NoZeroChild ↔ ∀ e ∈ db.dirties.entries, zeroHash ∉ e.2.childHashes := by
  constructor
  · rintro hz ⟨hash, n⟩ he
    exact hz hash n (AList.mem_lookup_iff.mpr he)
  · intro hz hash n hn
    exact hz ⟨hash, n⟩ (AList.mem_lookup_iff.mp hn)

instance : DecidablePred Database.NoZeroChild := fun _ => decidable_of_iff _ noZeroChild_iff.symm

/-- A root (hash `1 ⋯ 1`) with a child it references (hash `2 ⋯ 2`), both cached from
`NewDatabase` with blobs of four bytes, the root referenced from the metaroot: the state
`Commit` of a new trie starts from. -/
def rootWithChild : Option Database := do
  let db ← newDatabase.insert (List.replicate 32 1) [0x83, 1, 2, 3] (.value [1, 2, 3])
  let db ← db.insert (List.replicate 32 2) [0x83, 4, 5, 6] (.value [4, 5, 6])
  let db ← db.reference (List.replicate 32 2) (List.replicate 32 1)
  db.reference (List.replicate 32 1) zeroHash

theorem commitRoot_totalDrift_rootWithChild :
    ∃ db db', rootWithChild = some db ∧ db.commitRoot 3 (List.replicate 32 1) = some db' ∧
      db'.totalDrift = db.totalDrift := by
  obtain ⟨db, hdb⟩ := Option.isSome_iff_exists.mp (by decide : rootWithChild.isSome = true)
  have hz : (rootWithChild.map fun db => decide db.NoZeroChild) = some true := by decide
  have hc : (rootWithChild.bind fun db => db.commitRoot 3 (List.replicate 32 1)).isSome = true := by decide
  rw [hdb, Option.map_some, Option.some.injEq, decide_eq_true_iff] at hz
  rw [hdb, Option.bind_some] at hc
  obtain ⟨db', hdb'⟩ := Option.isSome_iff_exists.mp hc
  exact ⟨db, db', hdb, hdb', commitRoot_totalDrift (by decide) hz hdb'⟩

/-- `Commit` of that root: both counters are exact before it; after it the two nodes are gone,
`dirtiesSize` is `-82`, short by the root's map (`48 + 34`), where the nodes left count `0`, and
`childrenSize` is `116`, where the maps left take `34`, the metaroot's entry. -/
theorem commit_drifts_sizes :
    rootWithChild.map (fun db => (db.drift, (db.commitRoot 3 (List.replicate 32 1)).map fun db' =>
        (db'.dirtiesSize, db'.dirtiesTotal, db'.childrenSize, db'.childrenTotal))) =
      some ((0, 0), some (-82, 0, 116, 34)) := by
  decide

/-! ## `insert` and `reference` -/

theorem metaroot_mem {db : Database} (hwf : db.Wf) : zeroHash ∈ db.dirties := by
  obtain ⟨n, hn, _⟩ := hwf.metaroot
  rw [← AList.lookup_isSome, hn]
  rfl

/-- The new entry of `insert`, in a cache that does not hold its hash. -/
theorem insert_new {db db' : Database} {hash blob : List UInt8} {node : Node} (hmem : hash ∉ db.dirties)
    (h : db.insert hash blob node = some db') :
    ∃ db₁ : Database, db₁.Relinked { db with dirties :=
        ((bumpParents db.dirties (gatherChildren (simplifyNode node))).insert hash
          ⟨simplifyNode node, blob.length % 2 ^ 16, 0, none, db.newest, zeroHash⟩) } ∧
      db' = { db₁ with dirtiesSize := db₁.dirtiesSize + ((hashLength + blob.length % 2 ^ 16) % 2 ^ 16 : Nat) } := by
  unfold Database.insert at h
  rw [if_neg hmem] at h
  dsimp only at h
  split_ifs at h with hold
  · -- the first node of the flush-list
    obtain ⟨db₁, h₁, h₂⟩ := Option.bind_eq_some_iff.mp h
    rw [Option.some.injEq] at h₁ h₂
    subst h₁
    refine ⟨_, ?_, h₂.symm⟩
    exact ⟨SameData.refl _, rfl, rfl⟩
  · -- the link from the newest node
    obtain ⟨db₁, h₁, h₂⟩ := Option.bind_eq_some_iff.mp h
    rw [Option.some.injEq] at h₂
    obtain ⟨db₀, h₀, rfl⟩ := Option.map_eq_some_iff.mp h₁
    have hrel := update_relinked h₀ fun _ => rfl
    refine ⟨_, ?_, h₂.symm⟩
    exact ⟨hrel.data, hrel.dirtiesSize, hrel.childrenSize⟩

/-- `insert` keeps the drifts when the hash and the size of the blob fit in their `uint16` sum. -/
theorem insert_drift {db db' : Database} {hash blob : List UInt8} {node : Node} (hwf : db.Wf)
    (hsize : hashLength + blob.length % 2 ^ 16 < 2 ^ 16) (h : db.insert hash blob node = some db') :
    db'.drift = db.drift := by
  by_cases hmem : hash ∈ db.dirties
  · rw [Database.insert, if_pos hmem, Option.some.injEq] at h
    rw [h]
  · -- a new node is not the metaroot, which is cached
    have hne : hash ≠ zeroHash := fun heq => hmem (heq ▸ metaroot_mem hwf)
    obtain ⟨db₁, hrel, rfl⟩ := insert_new hmem h
    have hbump := bumpParents_sameData db.dirties (gatherChildren (simplifyNode node))
    have hnot : hash ∉ bumpParents db.dirties (gatherChildren (simplifyNode node)) := by
      rwa [hbump.mem_iff]
    have hdrift := hrel.drift
    simp only [Database.drift, Database.dirtiesTotal, Database.childrenTotal, Prod.mk.injEq] at hdrift ⊢
    rw [AList.sumBy_insert_of_notMem hnot, AList.sumBy_insert_of_notMem hnot, hbump.sumBy_nodeCost,
      hbump.sumBy_childrenCost, nodeCost_of_ne hne] at hdrift
    have hchildren : childrenCost hash ⟨simplifyNode node, blob.length % 2 ^ 16, 0, none, db.newest, zeroHash⟩ = 0 :=
      rfl
    rw [hchildren] at hdrift
    rw [Nat.mod_eq_of_lt hsize]
    dsimp only at hdrift
    omega

/-- A node written under a hash keeps the invariant when its counts are nonzero `uint16`s and,
under the metaroot's hash, it has a map. -/
theorem Database.Wf.insert {db : Database} (hwf : db.Wf) {k : List UInt8} {e : CachedNode}
    (hroot : k = zeroHash → e.children.isSome) (hcounts : ∀ m, e.children = some m → CountsOk m) :
    Database.Wf { db with dirties := db.dirties.insert k e } where
  metaroot := by
    by_cases hk : k = zeroHash
    · subst hk
      exact ⟨e, AList.lookup_insert _, hroot rfl⟩
    · obtain ⟨n, hn, hc⟩ := hwf.metaroot
      refine ⟨n, ?_, hc⟩
      rw [AList.lookup_insert_ne (Ne.symm hk)]
      exact hn
  counts := by
    intro hash n m hn hm
    by_cases hh : hash = k
    · subst hh
      rw [AList.lookup_insert, Option.some.injEq] at hn
      subst hn
      exact hcounts m hm
    · rw [AList.lookup_insert_ne hh] at hn
      exact hwf.counts hash n m hn hm

theorem insert_wf {db db' : Database} {hash blob : List UInt8} {node : Node} (hwf : db.Wf)
    (h : db.insert hash blob node = some db') : db'.Wf := by
  by_cases hmem : hash ∈ db.dirties
  · rw [Database.insert, if_pos hmem, Option.some.injEq] at h
    exact h ▸ hwf
  · have hne : hash ≠ zeroHash := fun heq => hmem (heq ▸ metaroot_mem hwf)
    obtain ⟨db₁, hrel, rfl⟩ := insert_new hmem h
    have hbump : Database.Wf { db with dirties := bumpParents db.dirties (gatherChildren (simplifyNode node)) } :=
      Database.Wf.of_sameData (bumpParents_sameData _ _) hwf
    -- the new node has no map
    have hnew : Database.Wf { db with dirties := ((bumpParents db.dirties (gatherChildren (simplifyNode node))).insert
        hash ⟨simplifyNode node, blob.length % 2 ^ 16, 0, none, db.newest, zeroHash⟩) } :=
      hbump.insert (fun hz => absurd hz hne) (fun m hm => by cases hm)
    exact Database.Wf.of_sameData hrel.data hnew

/-- The count `reference` writes is one exactly for a child the map does not hold yet. -/
theorem count_eq_one_iff {m : HashMap Nat} (hok : CountsOk m) (c : List UInt8) :
    ((m.lookup c).getD 0 + 1) % 2 ^ 16 = 1 ↔ c ∉ m := by
  rw [← AList.lookup_isSome]
  cases hc : m.lookup c with
  | none => simp
  | some k =>
    have hk := hok c k hc
    simp only [Option.getD_some, Option.isSome_some, not_true_eq_false, iff_false]
    omega

/-- A child added to a node's map adds an entry to what the map takes when it is new. -/
theorem childrenCost_insert {hash : List UInt8} {n : CachedNode} {m : HashMap Nat} (hm : n.children = some m)
    (c : List UInt8) (k : Nat) :
    childrenCost hash { n with children := some (m.insert c k) } =
      childrenCost hash n + if c ∈ m then 0 else ((hashLength + 2 : Nat) : Int) := by
  unfold childrenCost
  rw [hm]
  dsimp only
  by_cases hc : c ∈ m
  · rw [if_pos hc, mapSize, mapSize, AList.length_keys_insert_of_mem hc]
    ring
  · rw [if_neg hc, mapSize, mapSize, AList.length_keys_insert_of_notMem hc]
    split_ifs <;> push_cast <;> ring

theorem CachedNode.children_eq_of_data {n n' : CachedNode} (h : n.data = n'.data) :
    n.children = n'.children :=
  congrArg (fun x => x.2.2) h

/-- The end of `reference` on a parent with a map whose counts are nonzero keeps the drifts: the
count it writes is one exactly when the child is new to the map. -/
theorem addReference_drift {db db' : Database} {child parent : List UInt8} {p : CachedNode}
    {m : HashMap Nat} (hp : db.dirties.lookup parent = some p) (hm : p.children = some m) (hok : CountsOk m)
    (h : db.addReference child parent = some db') : db'.drift = db.drift := by
  unfold Database.addReference at h
  obtain ⟨db₁, h₁, h⟩ := Option.bind_eq_some_iff.mp h
  have hrel₁ := update_relinked h₁ fun _ => rfl
  obtain ⟨p₁, hp₁, h⟩ := Option.bind_eq_some_iff.mp h
  -- the child's new parent leaves the parent's map alone
  have hm₁ : p₁.children = some m := by
    obtain ⟨p', hp', hd⟩ := hrel₁.data.symm.exists_lookup hp
    rw [hp₁, Option.some.injEq] at hp'
    subst hp'
    exact (CachedNode.children_eq_of_data hd).trans hm
  rw [hm₁, Option.getD_some] at h
  obtain ⟨db₂, h₂, h₃⟩ := Option.bind_eq_some_iff.mp h
  obtain ⟨p₂, hp₂, rfl⟩ := update_eq_some.mp h₂
  rw [hp₁, Option.some.injEq] at hp₂
  subst hp₂
  rw [Option.some.injEq] at h₃
  subst h₃
  have hnode : nodeCost parent { p₁ with children := some (m.insert child (((m.lookup child).getD 0 + 1) % 2 ^ 16)) } =
      nodeCost parent p₁ := rfl
  have hdrift := hrel₁.drift
  simp only [Database.drift, Database.dirtiesTotal, Database.childrenTotal, Prod.mk.injEq] at hdrift ⊢
  by_cases hc : child ∈ m
  · -- a child the map holds: its count goes up, and nothing is counted
    rw [if_neg (fun h1 => (count_eq_one_iff hok child).mp h1 hc)]
    dsimp only
    rw [AList.sumBy_update hp₁, AList.sumBy_update hp₁, hnode, childrenCost_insert hm₁, if_pos hc]
    omega
  · -- a new child: one entry more, counted
    rw [if_pos ((count_eq_one_iff hok child).mpr hc)]
    dsimp only
    rw [AList.sumBy_update hp₁, AList.sumBy_update hp₁, hnode, childrenCost_insert hm₁, if_neg hc]
    omega

/-- `reference` keeps the drifts on a database with the invariant. -/
theorem reference_drift {db db' : Database} {child parent : List UInt8} (hwf : db.Wf)
    (h : db.reference child parent = some db') : db'.drift = db.drift := by
  unfold Database.reference at h
  by_cases hchild : child ∉ db.dirties
  · -- a node from disk
    rw [if_pos hchild, Option.some.injEq] at h
    rw [h]
  · rw [if_neg hchild] at h
    obtain ⟨p, hp, h⟩ := Option.bind_eq_some_iff.mp h
    cases hpc : p.children with
    | none =>
      rw [hpc] at h
      -- the parent is not the metaroot, whose map `NewDatabase` made
      have hne : parent ≠ zeroHash := by
        rintro rfl
        obtain ⟨n, hn, hc⟩ := hwf.metaroot
        rw [hp, Option.some.injEq] at hn
        subst hn
        rw [hpc] at hc
        cases hc
      obtain ⟨db₁, h₁, h₂⟩ := Option.bind_eq_some_iff.mp h
      obtain ⟨p₀, hp₀, rfl⟩ := update_eq_some.mp h₁
      rw [hp, Option.some.injEq] at hp₀
      subst hp₀
      rw [addReference_drift (AList.lookup_insert _) rfl (fun c k hk => by simp at hk) h₂]
      -- the new empty map is what `childrenSize` gained
      have hcost₀ : childrenCost parent p = 0 := by
        rw [childrenCost_of_ne hne, hpc]
        rfl
      have hcost₁ : childrenCost parent { p with children := some ∅ } = (cachedNodeChildrenSize : Nat) := by
        rw [childrenCost_of_ne hne]
        rfl
      have hnode : nodeCost parent { p with children := some ∅ } = nodeCost parent p := rfl
      simp only [Database.drift, Database.dirtiesTotal, Database.childrenTotal, Prod.mk.injEq]
      rw [AList.sumBy_update hp, AList.sumBy_update hp, hnode, hcost₀, hcost₁]
      omega
    | some m =>
      rw [hpc] at h
      dsimp only at h
      split_ifs at h with hdup
      · rw [Option.some.injEq] at h
        rw [h]
      · exact addReference_drift hp hpc (hwf.counts parent p m hp hpc) h

/-- A count below the `uint16` bound goes up without wrapping, and stays nonzero. -/
theorem countsOk_insert_count {m : HashMap Nat} (hok : CountsOk m) {c : List UInt8}
    (hwrap : m.lookup c ≠ some (2 ^ 16 - 1)) : CountsOk (m.insert c (((m.lookup c).getD 0 + 1) % 2 ^ 16)) := by
  intro c' k hk
  by_cases hc : c' = c
  · subst hc
    rw [AList.lookup_insert, Option.some.injEq] at hk
    subst hk
    cases hl : m.lookup c' with
    | none => simp
    | some k₀ =>
      have hk₀ := hok c' k₀ hl
      have hne : k₀ ≠ 2 ^ 16 - 1 := fun heq => hwrap (by rw [hl, heq])
      rw [Option.getD_some]
      omega
  · rw [AList.lookup_insert_ne hc] at hk
    exact hok c' k hk

/-- The end of `reference` keeps the invariant when the parent's count for the child is below
the `uint16` bound. -/
theorem addReference_wf {db db' : Database} {child parent : List UInt8} {p : CachedNode} {m : HashMap Nat}
    (hwf : db.Wf) (hp : db.dirties.lookup parent = some p) (hm : p.children = some m)
    (hwrap : m.lookup child ≠ some (2 ^ 16 - 1)) (h : db.addReference child parent = some db') : db'.Wf := by
  unfold Database.addReference at h
  obtain ⟨db₁, h₁, h⟩ := Option.bind_eq_some_iff.mp h
  have hrel₁ := update_relinked h₁ fun _ => rfl
  have hwf₁ := Database.Wf.of_sameData hrel₁.data hwf
  obtain ⟨p₁, hp₁, h⟩ := Option.bind_eq_some_iff.mp h
  have hm₁ : p₁.children = some m := by
    obtain ⟨p', hp', hd⟩ := hrel₁.data.symm.exists_lookup hp
    rw [hp₁, Option.some.injEq] at hp'
    subst hp'
    exact (CachedNode.children_eq_of_data hd).trans hm
  rw [hm₁, Option.getD_some] at h
  obtain ⟨db₂, h₂, h₃⟩ := Option.bind_eq_some_iff.mp h
  obtain ⟨p₂, hp₂, rfl⟩ := update_eq_some.mp h₂
  rw [hp₁, Option.some.injEq] at hp₂
  subst hp₂
  -- the parent's new map
  have hwf₂ : Database.Wf { db₁ with dirties := (db₁.dirties.insert parent
      { p₁ with children := some (m.insert child (((m.lookup child).getD 0 + 1) % 2 ^ 16)) }) } :=
    hwf₁.insert (fun _ => rfl) (fun m' hm' => by cases hm'; exact countsOk_insert_count (hwf₁.counts parent p₁ m hp₁ hm₁) hwrap)
  rw [Option.some.injEq] at h₃
  subst h₃
  split_ifs
  · exact ⟨hwf₂.metaroot, hwf₂.counts⟩
  · exact hwf₂

/-- `reference` keeps the invariant when the parent's count for the child is below the `uint16`
bound; only the metaroot's counts go above one. -/
theorem reference_wf {db db' : Database} {child parent : List UInt8} (hwf : db.Wf)
    (hwrap : ∀ p m, db.dirties.lookup parent = some p → p.children = some m → m.lookup child ≠ some (2 ^ 16 - 1))
    (h : db.reference child parent = some db') : db'.Wf := by
  unfold Database.reference at h
  by_cases hchild : child ∉ db.dirties
  · rw [if_pos hchild, Option.some.injEq] at h
    exact h ▸ hwf
  · rw [if_neg hchild] at h
    obtain ⟨p, hp, h⟩ := Option.bind_eq_some_iff.mp h
    cases hpc : p.children with
    | none =>
      rw [hpc] at h
      obtain ⟨db₁, h₁, h₂⟩ := Option.bind_eq_some_iff.mp h
      obtain ⟨p₀, hp₀, rfl⟩ := update_eq_some.mp h₁
      rw [hp, Option.some.injEq] at hp₀
      subst hp₀
      -- the parent's new map is empty
      have hwf₁ : Database.Wf { db with dirties := db.dirties.insert parent { p with children := some ∅ } } :=
        hwf.insert (fun _ => rfl) (fun m hm => by cases hm; intro c k hk; simp at hk)
      refine addReference_wf ?_ (AList.lookup_insert _) rfl (by simp) h₂
      exact ⟨hwf₁.metaroot, hwf₁.counts⟩
    | some m =>
      rw [hpc] at h
      dsimp only at h
      split_ifs at h with hdup
      · rw [Option.some.injEq] at h
        exact h ▸ hwf
      · exact addReference_wf hwf hp hpc (hwrap p m hp hpc) h

/-! ## Runs of `insert` and `reference` -/

/-- The databases that runs of `insert` and `reference` reach from `NewDatabase` when no hash and
blob reach the `uint16` bound of their sum and no count reaches its `uint16` bound. -/
inductive Reachable : Database → Prop
  | newDatabase : Reachable newDatabase
  | insert {db db' : Database} {hash blob : List UInt8} {node : Node} :
      Reachable db → hashLength + blob.length % 2 ^ 16 < 2 ^ 16 → db.insert hash blob node = some db' →
        Reachable db'
  | reference {db db' : Database} {child parent : List UInt8} :
      Reachable db →
        (∀ p m, db.dirties.lookup parent = some p → p.children = some m → m.lookup child ≠ some (2 ^ 16 - 1)) →
        db.reference child parent = some db' → Reachable db'

/-- Along every such run both counters are exact, by induction on the run with the invariant
carried along. -/
theorem reachable_exact {db : Database} (h : Reachable db) : db.Exact ∧ db.Wf := by
  induction h with
  | newDatabase => exact ⟨newDatabase_exact, newDatabase_wf⟩
  | insert _ hsize hins ih =>
    have hdrift := insert_drift ih.2 hsize hins
    exact ⟨hdrift.trans ih.1, insert_wf ih.2 hins⟩
  | reference _ hwrap href ih =>
    have hdrift := reference_drift ih.2 href
    exact ⟨hdrift.trans ih.1, reference_wf ih.2 hwrap href⟩

theorem reachable_exact_insert :
    ∃ db, newDatabase.insert (List.replicate 32 1) [0x83, 1, 2, 3] (.value [1, 2, 3]) = some db ∧ db.Exact ∧ db.Wf := by
  obtain ⟨db, hdb⟩ := Option.isSome_iff_exists.mp
    (by decide : (newDatabase.insert (List.replicate 32 1) [0x83, 1, 2, 3] (.value [1, 2, 3])).isSome = true)
  exact ⟨db, hdb, reachable_exact (.insert .newDatabase (by decide) hdb)⟩

end GoMetadium.Trie.Memory
