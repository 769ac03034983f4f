import GoMetadium.P2p.Netutil
import GoMetadium.P2p.Enode
import GoMetadium.Lib.Machine

/-!
# The discovery table

`p2p/discover/table.go`: the Kademlia table of neighbour nodes, seventeen buckets of at most
`bucketSize` live entries and `maxReplacements` replacements each, with two `DistinctNetSet`
counters (per table and per bucket) that limit how many IPs of one `/24` network it holds.
Every operation that `lookup`, the UDP transport and the refresh and revalidation loops call on
it is modelled: `addSeenNode`, `addVerifiedNode`, `delete`, and `doRevalidate` in its two halves,
the choice of `nodeToRevalidate` under the lock and, after the ping and the record request made
without it, `bumpInBucket` or `replace` under the lock again. Any number of other calls may come
between the two halves (`Event`, `World`).

The main result is the invariant of every run (`TableInv`, `run_tableInv`): in every bucket the
node IDs of the entries and the replacements are pairwise distinct, none is the table's own ID,
every one belongs to that bucket by its log distance, and both lists stay within their bounds.
One step of the argument is not about lists: when `bumpInBucket` refuses a node whose endpoint
changed because the new IP does not fit the limits, `addVerifiedNode` goes on to add the same
node as an entry or a replacement, and only the fact that the counters it just restored still
refuse that IP (`addIP_false_of_le`) keeps the node from being listed twice.
-/

set_option autoImplicit false

namespace GoMetadium.P2p

/-! ## Constants -/

/-- Kademlia bucket size. -/
def bucketSize : Nat := 16

/-- Size of the per-bucket replacement list. -/
def maxReplacements : Nat := 10

/-- `len(common.Hash{}) * 8`. -/
def hashBits : Nat := 32 * 8

/-- Number of buckets. -/
def nBuckets : Nat := hashBits / 15

/-- Log distance of the closest bucket. -/
def bucketMinDistance : Nat := hashBits - nBuckets

/-- At most two addresses of one `/24` in a bucket, ten in the table. -/
def bucketIPLimit : Nat := 2
def bucketSubnet : Nat := 24
def tableIPLimit : Nat := 10
def tableSubnet : Nat := 24

/-! ## Nodes, buckets and the table -/

/-- A table `node`: the ID, IP and record sequence number of its `enode.Node`, and how often its
liveness was checked. -/
structure Node where
  id : ID
  ip : IP
  seq : Nat
  livenessChecks : Nat
  deriving DecidableEq

/-- A `bucket`: live entries, most recently active first, replacements, and its IP counter. -/
structure Bucket where
  entries : List Node
  replacements : List Node
  ips : DistinctNetSet

/-- The fields of `Table` the node operations read and write. -/
structure Table where
  buckets : Fin nBuckets → Bucket
  ips : DistinctNetSet
  /-- The ID of `tab.self()`, the transport's own node. -/
  selfId : ID
  /-- Whether `tab.initDone` is closed: the first refresh has finished. -/
  initDone : Bool

/-- `tab.bucket(id)` as an index: the log distance to the table's own ID, the closest
`bucketMinDistance + 1` distances sharing bucket 0. -/
def bucketIndex (selfId id : ID) : Fin nBuckets :=
  ⟨if logDist selfId id ≤ bucketMinDistance then 0 else logDist selfId id - bucketMinDistance - 1,
    by
      have := logDist_le selfId id
      have hn : nBuckets = 17 := rfl
      have hm : bucketMinDistance = 239 := rfl
      split <;> omega⟩

namespace Table

/-- The table with bucket `i` replaced. -/
def setBucket (t : Table) (i : Fin nBuckets) (b : Bucket) : Table :=
  { t with buckets := Function.update t.buckets i b }

@[simp] theorem setBucket_buckets (t : Table) (i : Fin nBuckets) (b : Bucket) (j : Fin nBuckets) :
    (t.setBucket i b).buckets j = if j = i then b else t.buckets j :=
  Function.update_apply _ _ _ _

@[simp] theorem setBucket_selfId (t : Table) (i : Fin nBuckets) (b : Bucket) :
    (t.setBucket i b).selfId = t.selfId := rfl

@[simp] theorem setBucket_initDone (t : Table) (i : Fin nBuckets) (b : Bucket) :
    (t.setBucket i b).initDone = t.initDone := rfl

@[simp] theorem setBucket_ips (t : Table) (i : Fin nBuckets) (b : Bucket) :
    (t.setBucket i b).ips = t.ips := rfl

end Table

/-! ## The list helpers -/

/-- `contains`: a node of the list has the ID. -/
def contains (ns : List Node) (id : ID) : Bool := ns.any (·.id == id)

/-- `pushNode`: `n` in front, keeping at most `max` items, and the item pushed out. Both callers
pass a positive `max`, so a full list is never empty. -/
def pushNode (list : List Node) (n : Node) (max : Nat) : List Node × Option Node :=
  if list.length < max then (n :: list, none) else (n :: list.dropLast, list.getLast?)

/-- `deleteNode`: the list without its first node of `n`'s ID. -/
def deleteNode : List Node → Node → List Node
  | [], _ => []
  | m :: ms, n => if m.id = n.id then ms else m :: deleteNode ms n

/-- What `copy(b.entries[1:], b.entries[:i]); b.entries[0] = n` leaves: `n` in front, the
entries before `i` after it, and those after `i` in place. -/
def moveFront (entries : List Node) (i : Nat) (n : Node) : List Node :=
  n :: (entries.take i ++ entries.drop (i + 1))

/-! ## The IP counters -/

/-- `addIP`: a LAN address always fits; any other one is counted in the table and in the bucket,
and undone in the table when the bucket refuses it. -/
def addIP (t : Table) (bi : Fin nBuckets) (ip : IP) : Table × Bool :=
  if isLAN ip then (t, true)
  else
    match t.ips.add ip with
    | none => (t, false)
    | some tips =>
      match (t.buckets bi).ips.add ip with
      | none => ({ t with ips := tips.remove ip }, false)
      | some bips => ({ t.setBucket bi { t.buckets bi with ips := bips } with ips := tips }, true)

/-- `removeIP`. -/
def removeIP (t : Table) (bi : Fin nBuckets) (ip : IP) : Table :=
  if isLAN ip then t
  else
    { t.setBucket bi { t.buckets bi with ips := (t.buckets bi).ips.remove ip } with
      ips := t.ips.remove ip }

/-! ## The bucket operations -/

/-- `addReplacement`: `n` in front of the replacements, unless it is one already or its IP does
not fit; the IP of a replacement pushed out is released. -/
def addReplacement (t : Table) (bi : Fin nBuckets) (n : Node) : Table :=
  if (t.buckets bi).replacements.any (·.id == n.id) then t
  else
    let r := addIP t bi n.ip
    if !r.2 then r.1
    else
      let p := pushNode (r.1.buckets bi).replacements n maxReplacements
      let t := r.1.setBucket bi { r.1.buckets bi with replacements := p.1 }
      match p.2 with
      | some removed => removeIP t bi removed.ip
      | none => t

/-- `deleteInBucket`: the entry of `n`'s ID goes, and `n`'s IP is released. -/
def deleteInBucket (t : Table) (bi : Fin nBuckets) (n : Node) : Table :=
  removeIP (t.setBucket bi { t.buckets bi with entries := deleteNode (t.buckets bi).entries n })
    bi n.ip

/-- `replace`: when `last` is still the last entry, a replacement takes its place (the one at
`rand.Intn(len)`, here `k` modulo the length), or with no replacement it is deleted. -/
def replace (t : Table) (bi : Fin nBuckets) (last : Node) (k : Nat) : Table × Option Node :=
  let b := t.buckets bi
  if b.entries.getLast?.map (·.id) ≠ some last.id then (t, none)
  else if b.replacements = [] then (deleteInBucket t bi last, none)
  else
    -- an index below the length: the default is never read
    let r := b.replacements.getD (k % b.replacements.length) last
    let t := t.setBucket bi { b with
      replacements := deleteNode b.replacements r
      entries := b.entries.set (b.entries.length - 1) r }
    (removeIP t bi last.ip, some r)

/-- `bumpInBucket`: the entry of `n`'s ID moves to the front as `n`; when its IP changed, the
new one must fit the limits, or the old one is counted again and nothing moves. -/
def bumpInBucket (t : Table) (bi : Fin nBuckets) (n : Node) : Table × Bool :=
  let b := t.buckets bi
  match b.entries.findIdx? (·.id == n.id) with
  | none => (t, false)
  | some i =>
    -- an index below the length: the default is never read
    let old := (b.entries.getD i n).ip
    if !ipEqual n.ip old then
      let r := addIP (removeIP t bi old) bi n.ip
      if !r.2 then ((addIP r.1 bi old).1, false)
      else
        (r.1.setBucket bi { r.1.buckets bi with entries := moveFront (r.1.buckets bi).entries i n },
          true)
    else (t.setBucket bi { b with entries := moveFront b.entries i n }, true)

/-- `addSeenNode`: a node that may or may not be live, at the end of its bucket if there is room
and its IP fits, else among the replacements. -/
def addSeenNode (t : Table) (n : Node) : Table :=
  if n.id = t.selfId then t
  else
    let bi := bucketIndex t.selfId n.id
    if contains (t.buckets bi).entries n.id then t
    else if bucketSize ≤ (t.buckets bi).entries.length then addReplacement t bi n
    else
      let r := addIP t bi n.ip
      if !r.2 then r.1
      else
        r.1.setBucket bi { r.1.buckets bi with
          entries := (r.1.buckets bi).entries ++ [n]
          replacements := deleteNode (r.1.buckets bi).replacements n }

/-- `addVerifiedNode`: a node just verified, moved or added to the front of its bucket; nothing
before the table's initialisation is done. -/
def addVerifiedNode (t : Table) (n : Node) : Table :=
  if !t.initDone then t
  else if n.id = t.selfId then t
  else
    let bi := bucketIndex t.selfId n.id
    let b := bumpInBucket t bi n
    if b.2 then b.1
    else
      let t := b.1
      if bucketSize ≤ (t.buckets bi).entries.length then addReplacement t bi n
      else
        let r := addIP t bi n.ip
        if !r.2 then r.1
        else
          r.1.setBucket bi { r.1.buckets bi with
            entries := (pushNode (r.1.buckets bi).entries n bucketSize).1
            replacements := deleteNode (r.1.buckets bi).replacements n }

/-- `delete`: evacuates a dead node from its bucket. -/
def delete (t : Table) (n : Node) : Table := deleteInBucket t (bucketIndex t.selfId n.id) n

/-- `nodeToRevalidate`: the last entry of the first non-empty bucket in the order `perm`
(`tab.rand.Perm(len(tab.buckets))`). -/
def nodeToRevalidate (t : Table) (perm : List (Fin nBuckets)) : Option (Node × Fin nBuckets) :=
  perm.findSome? fun bi => (t.buckets bi).entries.getLast?.map fun last => (last, bi)

/-- The part of `doRevalidate` after the ping, under the lock again: `ping` is the remote
sequence number or an error, `enr` the record `RequestENR` answers when it is asked, `k` the
draw of `rand.Intn`. A node that answered moves to the front; one that did not is replaced. -/
def revalidate (t : Table) (last : Node) (bi : Fin nBuckets) (ping : Option Nat)
    (enr : Option Node) (k : Nat) : Table :=
  let last :=
    if last.seq < ping.getD 0 then
      match enr with
      | some n => { n with livenessChecks := last.livenessChecks }
      | none => last
    else last
  match ping with
  | some _ => (bumpInBucket t bi { last with livenessChecks := last.livenessChecks + 1 }).1
  | none => (replace t bi last k).1

/-- `getNode`: the entry of the ID in its bucket. -/
def getNode (t : Table) (id : ID) : Option Node :=
  (t.buckets (bucketIndex t.selfId id)).entries.find? (·.id == id)

/-- The entries of all buckets in bucket order, as `closest`, `ReadRandomNodes` and `len` walk
them. -/
def allEntries (t : Table) : List Node :=
  (List.finRange nBuckets).flatMap fun i => (t.buckets i).entries

/-- One swap of the shuffle in `ReadRandomNodes`, with `j = rand.Intn(len(nodes))` the `i`-th
draw taken modulo the length. -/
def shuffleStep (n : Nat) (draws : Nat → Nat) (a : Array Node) (i : Nat) : Array Node :=
  if h : i < a.size ∧ draws i % n < a.size then a.swap i (draws i % n) h.1 h.2 else a

/-- `ReadRandomNodes`: the table's entries shuffled, as many as fit `buf`. -/
def readRandomNodes (t : Table) (bufLen : Nat) (draws : Nat → Nat) : List Node :=
  if !t.initDone then []
  else
    let nodes := allEntries t
    ((List.range nodes.length).foldl (shuffleStep nodes.length draws) nodes.toArray).toList.take
      bufLen

/-- `newTable` before `loadSeedNodes`: empty buckets with their counters. -/
def newTable (selfId : ID) : Table where
  buckets := fun _ => ⟨[], [], DistinctNetSet.empty bucketSubnet bucketIPLimit⟩
  ips := DistinctNetSet.empty tableSubnet tableIPLimit
  selfId := selfId
  initDone := false

/-- `loadSeedNodes`: every seed through `addSeenNode`. -/
def loadSeedNodes (t : Table) (seeds : List Node) : Table := seeds.foldl addSeenNode t

/-! ## The runs -/

/-- What can happen to the table, each under its lock: a node seen in a lookup or a reply, a
node verified by a ping, a node deleted after failed lookups, the end of the first refresh, and
the two halves of a revalidation. -/
inductive Event where
  | addSeen (n : Node)
  | addVerified (n : Node)
  | delete (n : Node)
  | initDone
  | revalidateStart (perm : List (Fin nBuckets))
  | revalidateDone (ping : Option Nat) (enr : Option Node) (k : Nat)

/-- The table and the revalidation under way, if any: `loop` starts one only when the last one
reported done. -/
structure World where
  table : Table
  revalidating : Option (Node × Fin nBuckets)

/-- One event. -/
def World.step (w : World) : Event → World
  | .addSeen n => { w with table := addSeenNode w.table n }
  | .addVerified n => { w with table := addVerifiedNode w.table n }
  | .delete n => { w with table := delete w.table n }
  | .initDone => { w with table := { w.table with initDone := true } }
  | .revalidateStart perm =>
    match w.revalidating with
    | none => { w with revalidating := nodeToRevalidate w.table perm }
    | some _ => w
  | .revalidateDone ping enr k =>
    match w.revalidating with
    | some (last, bi) => ⟨revalidate w.table last bi ping enr k, none⟩
    | none => w

/-- The start: `newTable` with its seeds loaded and no revalidation under way. -/
def World.init (selfId : ID) (seeds : List Node) : World :=
  ⟨loadSeedNodes (newTable selfId) seeds, none⟩

/-- The machine of the table's events. -/
def machine : Machine World Event Unit := ⟨fun w e => ((), w.step e)⟩

/-- The world after the events. -/
def run (selfId : ID) (seeds : List Node) (events : List Event) : World :=
  (machine.run (World.init selfId seeds) events).2

/-! ## The invariant of a bucket, on its IDs -/

/-- What a bucket keeps, on the IDs of its entries `A` and of its replacements `B`: no ID twice,
none the table's own, every one of this bucket by its log distance, and both lists within their
bounds. -/
structure IdsInv (selfId : ID) (i : Fin nBuckets) (A B : List ID) : Prop where
  nodup : (A ++ B).Nodup
  entries_le : A.length ≤ bucketSize
  replacements_le : B.length ≤ maxReplacements
  ok : ∀ x ∈ A ++ B, x ≠ selfId ∧ bucketIndex selfId x = i

namespace IdsInv

variable {selfId : ID} {i : Fin nBuckets} {A B : List ID}

theorem disjoint (h : IdsInv selfId i A B) : ∀ x ∈ A, ∀ y ∈ B, x ≠ y :=
  (List.nodup_append.mp h.nodup).2.2

theorem not_mem_erase (h : IdsInv selfId i A B) (x : ID) : x ∉ B.erase x :=
  (List.nodup_append.mp h.nodup).2.1.not_mem_erase

/-- The shape of most steps: the new lists are a permutation of one ID before a sublist of the
old ones. -/
theorem of_perm_cons (h : IdsInv selfId i A B) {A' B' C : List ID} {x : ID}
    (hC : C.Sublist (A ++ B)) (hx : x ∉ C) (hxok : x ≠ selfId ∧ bucketIndex selfId x = i)
    (hperm : (A' ++ B').Perm (x :: C)) (hA : A'.length ≤ bucketSize)
    (hB : B'.length ≤ maxReplacements) : IdsInv selfId i A' B' where
  nodup := hperm.nodup_iff.mpr (List.nodup_cons.mpr ⟨hx, h.nodup.sublist hC⟩)
  entries_le := hA
  replacements_le := hB
  ok := fun y hy => by
    rcases List.mem_cons.mp (hperm.subset hy) with rfl | hy
    · exact hxok
    · exact h.ok y (hC.subset hy)

/-- A new ID at the end of the entries, gone from the replacements if it was one. -/
theorem append (h : IdsInv selfId i A B) {x : ID} (hx : x ∉ A) (hlen : A.length < bucketSize)
    (hxok : x ≠ selfId ∧ bucketIndex selfId x = i) :
    IdsInv selfId i (A ++ [x]) (B.erase x) := by
  have hsub : (A ++ B.erase x).Sublist (A ++ B) := List.erase_sublist.append_left A
  refine h.of_perm_cons hsub ?_ hxok ?_ ?_ ?_
  · simpa [hx] using h.not_mem_erase x
  · rw [List.append_assoc, List.singleton_append]
    exact List.perm_middle
  · simpa using hlen
  · exact List.length_erase_le.trans h.replacements_le

/-- A new ID in front of the entries, gone from the replacements if it was one. -/
theorem cons (h : IdsInv selfId i A B) {x : ID} (hx : x ∉ A) (hlen : A.length < bucketSize)
    (hxok : x ≠ selfId ∧ bucketIndex selfId x = i) : IdsInv selfId i (x :: A) (B.erase x) := by
  have hsub : (A ++ B.erase x).Sublist (A ++ B) := List.erase_sublist.append_left A
  refine h.of_perm_cons hsub ?_ hxok (List.Perm.refl _) ?_ ?_
  · simpa [hx] using h.not_mem_erase x
  · simpa using hlen
  · exact List.length_erase_le.trans h.replacements_le

/-- A new ID in front of what is kept of the replacements. -/
theorem cons_replacements (h : IdsInv selfId i A B) {x : ID} {B' : List ID} (hsub : B'.Sublist B)
    (hlen : B'.length + 1 ≤ maxReplacements) (hx : x ∉ A ++ B)
    (hxok : x ≠ selfId ∧ bucketIndex selfId x = i) : IdsInv selfId i A (x :: B') :=
  h.of_perm_cons (hsub.append_left A) (fun hm => hx ((hsub.append_left A).subset hm)) hxok
    List.perm_middle h.entries_le hlen

/-- An entry's ID goes. -/
theorem erase (h : IdsInv selfId i A B) (x : ID) : IdsInv selfId i (A.erase x) B where
  nodup := h.nodup.sublist (List.erase_sublist.append_right B)
  entries_le := List.length_erase_le.trans h.entries_le
  replacements_le := h.replacements_le
  ok := fun y hy => h.ok y ((List.erase_sublist.append_right B).subset hy)

/-- A replacement's ID takes the last entry's place. -/
theorem replaceLast (h : IdsInv selfId i A B) {y : ID} (hy : y ∈ B) (hA : A ≠ []) :
    IdsInv selfId i (A.dropLast ++ [y]) (B.erase y) := by
  have hsub : (A.dropLast ++ B.erase y).Sublist (A ++ B) :=
    (List.dropLast_sublist A).append List.erase_sublist
  refine h.of_perm_cons hsub ?_ (h.ok y (List.mem_append_right A hy)) ?_ ?_ ?_
  · intro hm
    rcases List.mem_append.mp hm with hm | hm
    · exact h.disjoint y ((List.dropLast_sublist A).subset hm) y hy rfl
    · exact h.not_mem_erase y hm
  · rw [List.append_assoc, List.singleton_append]
    exact List.perm_middle
  · have hpos : 0 < A.length := List.length_pos_of_ne_nil hA
    have := h.entries_le
    simp only [List.length_append, List.length_dropLast, List.length_singleton]
    omega
  · exact List.length_erase_le.trans h.replacements_le

/-- The entries' IDs in another order. -/
theorem perm (h : IdsInv selfId i A B) {A' : List ID} (hA : A'.Perm A) : IdsInv selfId i A' B where
  nodup := (hA.append_right B).nodup_iff.mpr h.nodup
  entries_le := hA.length_eq ▸ h.entries_le
  replacements_le := h.replacements_le
  ok := fun y hy => h.ok y ((hA.append_right B).subset hy)

end IdsInv

/-! ## The node lists, on their IDs -/

theorem map_id_deleteNode (l : List Node) (n : Node) :
    (deleteNode l n).map (·.id) = (l.map (·.id)).erase n.id := by
  induction l with
  | nil => rfl
  | cons m ms ih =>
    by_cases hm : m.id = n.id
    · simp [deleteNode, hm]
    · simp [deleteNode, hm, ih]

theorem map_id_moveFront {l : List Node} {k : Nat} {e n : Node} (hk : l[k]? = some e)
    (he : e.id = n.id) : ((moveFront l k n).map (·.id)).Perm (l.map (·.id)) := by
  obtain ⟨hlt, hget⟩ := List.getElem?_eq_some_iff.mp hk
  have hlt' : k < (l.map (·.id)).length := by simpa using hlt
  have hhead : (l.map (·.id))[k] = n.id := by simp [hget, he]
  have := List.getElem_cons_eraseIdx_perm hlt'
  rw [hhead, List.eraseIdx_eq_take_drop_succ] at this
  simpa [moveFront] using this

theorem map_id_set_last {l : List Node} (hl : l ≠ []) (r : Node) :
    (l.set (l.length - 1) r).map (·.id) = (l.map (·.id)).dropLast ++ [r.id] := by
  obtain ⟨l', a, rfl⟩ : ∃ l' a, l = l' ++ [a] :=
    ⟨l.dropLast, l.getLast hl, (List.dropLast_append_getLast hl).symm⟩
  simp [List.set_append_right]

theorem pushNode_fst (l : List Node) (n : Node) (max : Nat) :
    (pushNode l n max).1 = if l.length < max then n :: l else n :: l.dropLast := by
  unfold pushNode
  split <;> rfl

theorem mem_map_id_of_contains {l : List Node} {id : ID} :
    contains l id = true ↔ id ∈ l.map (·.id) := by
  simp [contains]

/-! ## What each operation does to the nodes -/

/-- `t'` has the table's own ID and the nodes of `t` in every bucket. -/
structure SameNodes (t t' : Table) : Prop where
  selfId_eq : t'.selfId = t.selfId
  entries_eq : ∀ j, (t'.buckets j).entries = (t.buckets j).entries
  replacements_eq : ∀ j, (t'.buckets j).replacements = (t.buckets j).replacements

/-- `t'` has the table's own ID and the nodes of `t` in every bucket but `bi`, which holds the
entries `E` and the replacements `R`. -/
structure Moves (t t' : Table) (bi : Fin nBuckets) (E R : List Node) : Prop where
  selfId_eq : t'.selfId = t.selfId
  entries_eq : (t'.buckets bi).entries = E
  replacements_eq : (t'.buckets bi).replacements = R
  others : ∀ j, j ≠ bi → (t'.buckets j).entries = (t.buckets j).entries ∧
    (t'.buckets j).replacements = (t.buckets j).replacements

namespace SameNodes

variable {t t₁ t₂ : Table}

theorem refl (t : Table) : SameNodes t t := ⟨rfl, fun _ => rfl, fun _ => rfl⟩

theorem trans (h₁ : SameNodes t t₁) (h₂ : SameNodes t₁ t₂) : SameNodes t t₂ :=
  ⟨h₂.selfId_eq.trans h₁.selfId_eq, fun j => (h₂.entries_eq j).trans (h₁.entries_eq j),
    fun j => (h₂.replacements_eq j).trans (h₁.replacements_eq j)⟩

theorem trans_moves {bi : Fin nBuckets} {E R : List Node} (h₁ : SameNodes t t₁)
    (h₂ : Moves t₁ t₂ bi E R) : Moves t t₂ bi E R :=
  ⟨h₂.selfId_eq.trans h₁.selfId_eq, h₂.entries_eq, h₂.replacements_eq, fun j hj =>
    ⟨(h₂.others j hj).1.trans (h₁.entries_eq j),
      (h₂.others j hj).2.trans (h₁.replacements_eq j)⟩⟩

end SameNodes

theorem Moves.trans_same {t t₁ t₂ : Table} {bi : Fin nBuckets} {E R : List Node}
    (h₁ : Moves t t₁ bi E R) (h₂ : SameNodes t₁ t₂) : Moves t t₂ bi E R :=
  ⟨h₂.selfId_eq.trans h₁.selfId_eq, (h₂.entries_eq bi).trans h₁.entries_eq,
    (h₂.replacements_eq bi).trans h₁.replacements_eq, fun j hj =>
    ⟨(h₂.entries_eq j).trans (h₁.others j hj).1,
      (h₂.replacements_eq j).trans (h₁.others j hj).2⟩⟩

theorem Moves.congr {t t' : Table} {bi : Fin nBuckets} {E E' R R' : List Node}
    (h : Moves t t' bi E R) (hE : E = E') (hR : R = R') : Moves t t' bi E' R' := by
  subst hE hR
  exact h

theorem moves_setBucket (t : Table) (bi : Fin nBuckets) (b : Bucket) :
    Moves t (t.setBucket bi b) bi b.entries b.replacements :=
  ⟨rfl, by simp, by simp, fun j hj => by simp [hj]⟩

/-- Changing only the counters keeps the nodes. -/
theorem sameNodes_of_ips (t : Table) (bi : Fin nBuckets) (bips tips : DistinctNetSet) :
    SameNodes t { t.setBucket bi { t.buckets bi with ips := bips } with ips := tips } :=
  ⟨rfl, fun j => by by_cases hj : j = bi <;> simp [hj],
    fun j => by by_cases hj : j = bi <;> simp [hj]⟩

theorem addIP_sameNodes (t : Table) (bi : Fin nBuckets) (ip : IP) :
    SameNodes t (addIP t bi ip).1 := by
  unfold addIP
  split
  · exact SameNodes.refl t
  · split
    · exact SameNodes.refl t
    · split
      · exact ⟨rfl, fun _ => rfl, fun _ => rfl⟩
      · exact sameNodes_of_ips t bi _ _

theorem removeIP_sameNodes (t : Table) (bi : Fin nBuckets) (ip : IP) :
    SameNodes t (removeIP t bi ip) := by
  unfold removeIP
  split
  · exact SameNodes.refl t
  · exact sameNodes_of_ips t bi _ _

theorem deleteInBucket_moves (t : Table) (bi : Fin nBuckets) (n : Node) :
    Moves t (deleteInBucket t bi n) bi (deleteNode (t.buckets bi).entries n)
      (t.buckets bi).replacements :=
  (moves_setBucket t bi _).trans_same (removeIP_sameNodes _ bi n.ip)

/-! ## The counters refuse monotonically -/

/-- `t'` counts the table's IPs and bucket `bi`'s at least as often as `t`. -/
structure IpsLe (bi : Fin nBuckets) (t t' : Table) : Prop where
  tab : t.ips.Le t'.ips
  bucket : (t.buckets bi).ips.Le (t'.buckets bi).ips

theorem addIP_false_iff (t : Table) (bi : Fin nBuckets) (ip : IP) :
    (addIP t bi ip).2 = false ↔
      isLAN ip = false ∧ (t.ips.add ip = none ∨ (t.buckets bi).ips.add ip = none) := by
  unfold addIP
  split
  next hlan => simp [hlan]
  next hlan =>
    split
    next htab => simp [hlan, htab]
    next tips htab =>
      split
      next hb => simp [hlan, htab, hb]
      next bips hb => simp [hlan, htab, hb]

/-- **A refused IP leaves the table as it was**: the table counter's increment is undone. -/
theorem addIP_eq_of_false {t : Table} {bi : Fin nBuckets} {ip : IP}
    (h : (addIP t bi ip).2 = false) : (addIP t bi ip).1 = t := by
  by_cases hlan : isLAN ip = true
  · simp [addIP, hlan] at h
  · cases htab : t.ips.add ip with
    | none => simp [addIP, hlan, htab]
    | some tips =>
      cases hb : (t.buckets bi).ips.add ip with
      | none =>
        simp only [addIP, hlan, htab, hb, Bool.false_eq_true, if_false]
        rw [DistinctNetSet.remove_add htab]
      | some bips => simp [addIP, hlan, htab, hb] at h

theorem ipsLe_addIP (t : Table) (bi : Fin nBuckets) (ip : IP) : IpsLe bi t (addIP t bi ip).1 := by
  by_cases h : (addIP t bi ip).2 = false
  · rw [addIP_eq_of_false h]
    exact ⟨DistinctNetSet.Le.refl _, DistinctNetSet.Le.refl _⟩
  · -- the IP fits: both counters went up by one at its key, or nothing changed for a LAN IP
    by_cases hlan : isLAN ip = true
    · simp only [addIP, hlan, if_true]
      exact ⟨DistinctNetSet.Le.refl _, DistinctNetSet.Le.refl _⟩
    · cases htab : t.ips.add ip with
      | none => simp [addIP, hlan, htab] at h
      | some tips =>
        cases hb : (t.buckets bi).ips.add ip with
        | none => simp [addIP, hlan, htab, hb] at h
        | some bips =>
          simp only [addIP, hlan, htab, hb, Bool.false_eq_true, if_false]
          exact ⟨DistinctNetSet.le_add htab, by simpa using DistinctNetSet.le_add hb⟩

/-- **An IP refused is refused again by counters at least as high.** -/
theorem addIP_false_of_le {t t' : Table} {bi : Fin nBuckets} {ip : IP} (hle : IpsLe bi t t')
    (h : (addIP t bi ip).2 = false) : (addIP t' bi ip).2 = false := by
  rw [addIP_false_iff] at h ⊢
  refine ⟨h.1, ?_⟩
  rcases h.2 with h | h
  · exact Or.inl (DistinctNetSet.add_eq_none_of_le hle.tab h)
  · exact Or.inr (DistinctNetSet.add_eq_none_of_le hle.bucket h)

/-! ## The steps of the bucket operations -/

theorem addReplacement_cases (t : Table) (bi : Fin nBuckets) (n : Node) :
    SameNodes t (addReplacement t bi n) ∨
      (n.id ∉ (t.buckets bi).replacements.map (·.id) ∧
        Moves t (addReplacement t bi n) bi (t.buckets bi).entries
          (pushNode (t.buckets bi).replacements n maxReplacements).1) := by
  unfold addReplacement
  by_cases hin : (t.buckets bi).replacements.any (·.id == n.id) = true
  · rw [if_pos hin]
    exact Or.inl (SameNodes.refl t)
  · rw [if_neg hin]
    have hsame := addIP_sameNodes t bi n.ip
    by_cases hok : (addIP t bi n.ip).2 = true
    · -- the IP fits: `n` goes in front, and a replacement pushed out releases its IP
      simp only [hok, Bool.not_true, Bool.false_eq_true, if_false]
      right
      refine ⟨by simpa using hin, ?_⟩
      have hm := hsame.trans_moves (moves_setBucket (addIP t bi n.ip).1 bi
        { (addIP t bi n.ip).1.buckets bi with
          replacements := (pushNode ((addIP t bi n.ip).1.buckets bi).replacements n
            maxReplacements).1 })
      replace hm := hm.congr (hsame.entries_eq bi) (by rw [hsame.replacements_eq bi])
      split
      · exact hm.trans_same (removeIP_sameNodes _ _ _)
      · exact hm
    · simp only [Bool.not_eq_true] at hok
      simp only [hok, Bool.not_false, if_true]
      exact Or.inl hsame

theorem addReplacement_of_addIP_false {t : Table} {bi : Fin nBuckets} {n : Node}
    (h : (addIP t bi n.ip).2 = false) : SameNodes t (addReplacement t bi n) := by
  unfold addReplacement
  split
  · exact SameNodes.refl t
  · simp only [h, Bool.not_false, if_true]
    exact addIP_sameNodes t bi n.ip

theorem replace_cases (t : Table) (bi : Fin nBuckets) (last : Node) (k : Nat) :
    SameNodes t (replace t bi last k).1 ∨
      Moves t (replace t bi last k).1 bi (deleteNode (t.buckets bi).entries last)
        (t.buckets bi).replacements ∨
      ∃ r ∈ (t.buckets bi).replacements, (t.buckets bi).entries ≠ [] ∧
        Moves t (replace t bi last k).1 bi
          ((t.buckets bi).entries.set ((t.buckets bi).entries.length - 1) r)
          (deleteNode (t.buckets bi).replacements r) := by
  unfold replace
  by_cases hlast : (t.buckets bi).entries.getLast?.map (·.id) ≠ some last.id
  · rw [if_pos hlast]
    exact Or.inl (SameNodes.refl t)
  · rw [if_neg hlast]
    by_cases hnil : (t.buckets bi).replacements = []
    · rw [if_pos hnil]
      exact Or.inr (Or.inl (deleteInBucket_moves t bi last))
    · -- a replacement takes the last entry's place
      rw [if_neg hnil]
      right
      right
      have hlen : 0 < (t.buckets bi).replacements.length := List.length_pos_of_ne_nil hnil
      have hk : k % (t.buckets bi).replacements.length < (t.buckets bi).replacements.length :=
        Nat.mod_lt _ hlen
      refine ⟨_, ?_, ?_, (moves_setBucket t bi _).trans_same (removeIP_sameNodes _ bi last.ip)⟩
      · rw [List.getD_eq_getElem _ _ hk]
        exact List.getElem_mem hk
      · intro he
        simp [he] at hlast

theorem bumpInBucket_cases (t : Table) (bi : Fin nBuckets) (n : Node) :
    ((bumpInBucket t bi n).2 = true ∧
      ∃ k e, (t.buckets bi).entries[k]? = some e ∧ e.id = n.id ∧
        Moves t (bumpInBucket t bi n).1 bi (moveFront (t.buckets bi).entries k n)
          (t.buckets bi).replacements) ∨
      ((bumpInBucket t bi n).2 = false ∧ SameNodes t (bumpInBucket t bi n).1 ∧
        (n.id ∉ (t.buckets bi).entries.map (·.id) ∨
          (addIP (bumpInBucket t bi n).1 bi n.ip).2 = false)) := by
  unfold bumpInBucket
  dsimp only
  cases hf : (t.buckets bi).entries.findIdx? (·.id == n.id) with
  | none =>
    -- no entry has the ID
    right
    refine ⟨rfl, SameNodes.refl t, Or.inl ?_⟩
    rw [List.findIdx?_eq_none_iff] at hf
    simpa using fun e he => by simpa using hf e he
  | some i =>
    obtain ⟨hi, hid, -⟩ := List.findIdx?_eq_some_iff_getElem.mp hf
    have hk : (t.buckets bi).entries[i]? = some (t.buckets bi).entries[i] :=
      List.getElem?_eq_getElem hi
    have he : (t.buckets bi).entries[i].id = n.id := by simpa using hid
    have hold : ((t.buckets bi).entries.getD i n).ip = (t.buckets bi).entries[i].ip := by
      rw [List.getD_eq_getElem _ _ hi]
    simp only [hold]
    cases hip : ipEqual n.ip (t.buckets bi).entries[i].ip with
    | true =>
      left
      exact ⟨rfl, i, _, hk, he, moves_setBucket t bi _⟩
    | false =>
      -- the endpoint changed: the old IP is released and the new one must fit
      simp only [Bool.not_false, if_true]
      have h₁ := removeIP_sameNodes t bi (t.buckets bi).entries[i].ip
      have h₂ := addIP_sameNodes (removeIP t bi (t.buckets bi).entries[i].ip) bi n.ip
      cases hr : (addIP (removeIP t bi (t.buckets bi).entries[i].ip) bi n.ip).2 with
      | true =>
        left
        refine ⟨rfl, i, _, hk, he, ?_⟩
        have hm := (h₁.trans h₂).trans_moves (moves_setBucket _ bi
          { (addIP (removeIP t bi (t.buckets bi).entries[i].ip) bi n.ip).1.buckets bi with
            entries := moveFront ((addIP (removeIP t bi (t.buckets bi).entries[i].ip) bi
              n.ip).1.buckets bi).entries i n })
        exact hm.congr (by rw [(h₁.trans h₂).entries_eq bi])
          ((h₁.trans h₂).replacements_eq bi)
      | false =>
        -- the new IP was refused and the old one counted again: counters at least as high
        -- as those that refused it refuse it again
        right
        simp only [Bool.not_false, if_true]
        refine ⟨trivial, (h₁.trans h₂).trans (addIP_sameNodes _ bi _), Or.inr ?_⟩
        rw [addIP_eq_of_false hr]
        exact addIP_false_of_le (ipsLe_addIP _ bi _) hr

/-! ## The invariant of the table -/

/-- A bucket's invariant, on the IDs of its nodes. -/
def BucketInv (selfId : ID) (i : Fin nBuckets) (b : Bucket) : Prop :=
  IdsInv selfId i (b.entries.map (·.id)) (b.replacements.map (·.id))

/-- **The invariant of the table**: every bucket keeps its own. -/
def TableInv (t : Table) : Prop := ∀ i, BucketInv t.selfId i (t.buckets i)

namespace TableInv

variable {t t' : Table}

theorem of_sameNodes (h : TableInv t) (hs : SameNodes t t') : TableInv t' := by
  intro i
  unfold BucketInv
  rw [hs.entries_eq, hs.replacements_eq, hs.selfId_eq]
  exact h i

theorem of_moves {bi : Fin nBuckets} {E R : List Node} (h : TableInv t) (hm : Moves t t' bi E R)
    (hb : IdsInv t.selfId bi (E.map (·.id)) (R.map (·.id))) : TableInv t' := by
  intro j
  unfold BucketInv
  rw [hm.selfId_eq]
  by_cases hj : j = bi
  · subst hj
    rw [hm.entries_eq, hm.replacements_eq]
    exact hb
  · rw [(hm.others j hj).1, (hm.others j hj).2]
    exact h j

theorem deleteInBucket (h : TableInv t) (bi : Fin nBuckets) (n : Node) :
    TableInv (P2p.deleteInBucket t bi n) := by
  apply h.of_moves (deleteInBucket_moves t bi n)
  rw [map_id_deleteNode]
  exact (h bi).erase n.id

theorem replace (h : TableInv t) (bi : Fin nBuckets) (last : Node) (k : Nat) :
    TableInv (P2p.replace t bi last k).1 := by
  rcases replace_cases t bi last k with hs | hm | ⟨r, hr, hne, hm⟩
  · exact h.of_sameNodes hs
  · apply h.of_moves hm
    rw [map_id_deleteNode]
    exact (h bi).erase last.id
  · apply h.of_moves hm
    rw [map_id_set_last hne, map_id_deleteNode]
    exact (h bi).replaceLast (List.mem_map_of_mem hr) (by simpa using hne)

theorem bumpInBucket (h : TableInv t) (bi : Fin nBuckets) (n : Node) :
    TableInv (P2p.bumpInBucket t bi n).1 := by
  rcases bumpInBucket_cases t bi n with ⟨-, k, e, hk, he, hm⟩ | ⟨-, hs, -⟩
  · exact h.of_moves hm ((h bi).perm (map_id_moveFront hk he))
  · exact h.of_sameNodes hs

/-- A node of this bucket that is not an entry may become a replacement. -/
theorem addReplacement (h : TableInv t) {bi : Fin nBuckets} {n : Node}
    (hE : n.id ∉ (t.buckets bi).entries.map (·.id))
    (hok : n.id ≠ t.selfId ∧ bucketIndex t.selfId n.id = bi) :
    TableInv (P2p.addReplacement t bi n) := by
  rcases addReplacement_cases t bi n with hs | ⟨hR, hm⟩
  · exact h.of_sameNodes hs
  · apply h.of_moves hm
    have hx :
        n.id ∉ (t.buckets bi).entries.map (·.id) ++ (t.buckets bi).replacements.map (·.id) := by
      simp only [List.mem_append, not_or]
      exact ⟨hE, hR⟩
    rw [pushNode_fst]
    split
    · -- room left: `n` in front of all of them
      next hlen =>
      simpa using (h bi).cons_replacements (List.Sublist.refl _) (by simpa using hlen) hx hok
    · -- full: the last replacement is pushed out
      next hlen =>
      have hpos : 0 < (t.buckets bi).replacements.length := by
        unfold maxReplacements at hlen
        omega
      have hle := (h bi).replacements_le
      simp only [List.length_map] at hle
      simpa [List.map_dropLast] using (h bi).cons_replacements (List.dropLast_sublist _)
        (by simp only [List.length_dropLast, List.length_map]; omega) hx hok

/-- A new node at the end or the front of its bucket's entries. -/
theorem addEntry (h : TableInv t) {bi : Fin nBuckets} {n : Node} {E : List Node}
    (hE : n.id ∉ (t.buckets bi).entries.map (·.id))
    (hlen : (t.buckets bi).entries.length < bucketSize)
    (hok : n.id ≠ t.selfId ∧ bucketIndex t.selfId n.id = bi)
    (hEq : E.map (·.id) = (t.buckets bi).entries.map (·.id) ++ [n.id] ∨
      E.map (·.id) = n.id :: (t.buckets bi).entries.map (·.id))
    (hm : Moves t t' bi E (deleteNode (t.buckets bi).replacements n)) : TableInv t' := by
  apply h.of_moves hm
  rw [map_id_deleteNode]
  rcases hEq with hEq | hEq
  · rw [hEq]
    exact (h bi).append hE (by simpa using hlen) hok
  · rw [hEq]
    exact (h bi).cons hE (by simpa using hlen) hok

theorem addSeenNode (h : TableInv t) (n : Node) : TableInv (P2p.addSeenNode t n) := by
  unfold P2p.addSeenNode
  dsimp only
  by_cases hself : n.id = t.selfId
  · rw [if_pos hself]
    exact h
  rw [if_neg hself]
  by_cases hin : contains (t.buckets (bucketIndex t.selfId n.id)).entries n.id = true
  · rw [if_pos hin]
    exact h
  rw [if_neg hin]
  have hE : n.id ∉ (t.buckets (bucketIndex t.selfId n.id)).entries.map (·.id) := by
    rwa [← mem_map_id_of_contains]
  by_cases hfull : bucketSize ≤ (t.buckets (bucketIndex t.selfId n.id)).entries.length
  · rw [if_pos hfull]
    exact h.addReplacement hE ⟨hself, rfl⟩
  rw [if_neg hfull]
  have hsame := addIP_sameNodes t (bucketIndex t.selfId n.id) n.ip
  cases hok : (addIP t (bucketIndex t.selfId n.id) n.ip).2 with
  | false =>
    simp only [Bool.not_false, if_true]
    exact h.of_sameNodes hsame
  | true =>
    -- the IP fits: `n` at the end of the entries, no longer a replacement
    simp only [Bool.not_true, Bool.false_eq_true, if_false]
    refine h.addEntry (E := (t.buckets (bucketIndex t.selfId n.id)).entries ++ [n]) hE
      (Nat.lt_of_not_le hfull) ⟨hself, rfl⟩ (Or.inl (by simp)) ?_
    have hm := hsame.trans_moves (moves_setBucket _ (bucketIndex t.selfId n.id)
      { (addIP t (bucketIndex t.selfId n.id) n.ip).1.buckets (bucketIndex t.selfId n.id) with
        entries := ((addIP t (bucketIndex t.selfId n.id) n.ip).1.buckets
          (bucketIndex t.selfId n.id)).entries ++ [n]
        replacements := deleteNode ((addIP t (bucketIndex t.selfId n.id) n.ip).1.buckets
          (bucketIndex t.selfId n.id)).replacements n })
    exact hm.congr (by rw [hsame.entries_eq]) (by rw [hsame.replacements_eq])

theorem addVerifiedNode (h : TableInv t) (n : Node) : TableInv (P2p.addVerifiedNode t n) := by
  unfold P2p.addVerifiedNode
  dsimp only
  by_cases hinit : (!t.initDone) = true
  · rw [if_pos hinit]
    exact h
  rw [if_neg hinit]
  by_cases hself : n.id = t.selfId
  · rw [if_pos hself]
    exact h
  rw [if_neg hself]
  by_cases hbump : (P2p.bumpInBucket t (bucketIndex t.selfId n.id) n).2 = true
  · rw [if_pos hbump]
    exact h.bumpInBucket _ n
  rw [if_neg hbump]
  obtain ⟨-, hs, hwhy⟩ := (bumpInBucket_cases t (bucketIndex t.selfId n.id) n).resolve_left
    fun h' => hbump h'.1
  have h₁ := h.of_sameNodes hs
  have hok₁ : n.id ≠ (P2p.bumpInBucket t (bucketIndex t.selfId n.id) n).1.selfId ∧
      bucketIndex (P2p.bumpInBucket t (bucketIndex t.selfId n.id) n).1.selfId n.id =
        bucketIndex t.selfId n.id := by
    rw [hs.selfId_eq]
    exact ⟨hself, rfl⟩
  rcases hwhy with hnot | hfail
  · -- no entry has the ID: a new entry in front, or a replacement
    have hE : n.id ∉ ((P2p.bumpInBucket t (bucketIndex t.selfId n.id) n).1.buckets
        (bucketIndex t.selfId n.id)).entries.map (·.id) := by
      rwa [hs.entries_eq]
    split
    · exact h₁.addReplacement hE hok₁
    next hfull =>
      have hsame := addIP_sameNodes (P2p.bumpInBucket t (bucketIndex t.selfId n.id) n).1
        (bucketIndex t.selfId n.id) n.ip
      cases hok : (addIP (P2p.bumpInBucket t (bucketIndex t.selfId n.id) n).1
          (bucketIndex t.selfId n.id) n.ip).2 with
      | false =>
        simp only [Bool.not_false, if_true]
        exact h₁.of_sameNodes hsame
      | true =>
        simp only [Bool.not_true, Bool.false_eq_true, if_false]
        have hlen := Nat.lt_of_not_le hfull
        refine h₁.addEntry
          (E := n :: ((P2p.bumpInBucket t (bucketIndex t.selfId n.id) n).1.buckets
            (bucketIndex t.selfId n.id)).entries) hE hlen hok₁ (Or.inr (by simp)) ?_
        have hm := hsame.trans_moves (moves_setBucket _ (bucketIndex t.selfId n.id)
          { (addIP (P2p.bumpInBucket t (bucketIndex t.selfId n.id) n).1
              (bucketIndex t.selfId n.id) n.ip).1.buckets (bucketIndex t.selfId n.id) with
            entries := (pushNode ((addIP (P2p.bumpInBucket t (bucketIndex t.selfId n.id) n).1
              (bucketIndex t.selfId n.id) n.ip).1.buckets (bucketIndex t.selfId n.id)).entries n
              bucketSize).1
            replacements := deleteNode ((addIP (P2p.bumpInBucket t (bucketIndex t.selfId n.id)
              n).1 (bucketIndex t.selfId n.id) n.ip).1.buckets
              (bucketIndex t.selfId n.id)).replacements n })
        refine hm.congr ?_ (by rw [hsame.replacements_eq])
        rw [pushNode_fst, hsame.entries_eq, if_pos hlen]
  · -- the ID is an entry whose new IP was refused: refused again, nothing moves
    split
    · exact h₁.of_sameNodes (addReplacement_of_addIP_false hfail)
    · simp only [hfail, Bool.not_false, if_true]
      exact h₁.of_sameNodes (addIP_sameNodes _ _ _)

theorem revalidate (h : TableInv t) (last : Node) (bi : Fin nBuckets) (ping : Option Nat)
    (enr : Option Node) (k : Nat) : TableInv (P2p.revalidate t last bi ping enr k) := by
  unfold P2p.revalidate
  dsimp only
  split
  · exact h.bumpInBucket bi _
  · exact h.replace bi _ k

theorem newTable (selfId : ID) : TableInv (P2p.newTable selfId) := fun _ =>
  ⟨List.nodup_nil, Nat.zero_le _, Nat.zero_le _, fun _ hx => by simp [P2p.newTable] at hx⟩

theorem loadSeedNodes (h : TableInv t) (seeds : List Node) :
    TableInv (P2p.loadSeedNodes t seeds) := by
  induction seeds generalizing t with
  | nil => exact h
  | cons n ns ih => exact ih (h.addSeenNode n)

end TableInv

/-! ## Every run -/

/-- **Every event keeps the invariant.** -/
theorem World.step_tableInv {w : World} (h : TableInv w.table) (e : Event) :
    TableInv (w.step e).table := by
  cases e with
  | addSeen n => exact h.addSeenNode n
  | addVerified n => exact h.addVerifiedNode n
  | delete n => exact h.deleteInBucket _ n
  | initDone => exact h.of_sameNodes ⟨rfl, fun _ => rfl, fun _ => rfl⟩
  | revalidateStart perm =>
    cases hr : w.revalidating with
    | none =>
      simp only [World.step, hr]
      exact h
    | some p =>
      simp only [World.step, hr]
      exact h
  | revalidateDone ping enr k =>
    cases hr : w.revalidating with
    | none =>
      simp only [World.step, hr]
      exact h
    | some p =>
      simp only [World.step, hr]
      exact h.revalidate p.1 p.2 ping enr k

/-- **The invariant of every run.** -/
theorem run_tableInv (selfId : ID) (seeds : List Node) (events : List Event) :
    TableInv (run selfId seeds events).table :=
  have hpres : machine.Preserves fun w => TableInv w.table := fun _ e h => World.step_tableInv h e
  machine.run_inv hpres _ events ((TableInv.newTable selfId).loadSeedNodes seeds)

/-! ## The table's own ID never changes -/

@[simp] theorem addIP_selfId (t : Table) (bi : Fin nBuckets) (ip : IP) :
    (addIP t bi ip).1.selfId = t.selfId := (addIP_sameNodes t bi ip).selfId_eq

@[simp] theorem addReplacement_selfId (t : Table) (bi : Fin nBuckets) (n : Node) :
    (addReplacement t bi n).selfId = t.selfId := by
  rcases addReplacement_cases t bi n with h | ⟨-, h⟩
  · exact h.selfId_eq
  · exact h.selfId_eq

@[simp] theorem bumpInBucket_selfId (t : Table) (bi : Fin nBuckets) (n : Node) :
    (bumpInBucket t bi n).1.selfId = t.selfId := by
  rcases bumpInBucket_cases t bi n with ⟨_, _, _, _, _, h⟩ | ⟨_, h, _⟩
  · exact h.selfId_eq
  · exact h.selfId_eq

@[simp] theorem replace_selfId (t : Table) (bi : Fin nBuckets) (last : Node) (k : Nat) :
    (replace t bi last k).1.selfId = t.selfId := by
  rcases replace_cases t bi last k with h | h | ⟨_, _, _, h⟩
  · exact h.selfId_eq
  · exact h.selfId_eq
  · exact h.selfId_eq

theorem World.step_selfId (w : World) (e : Event) : (w.step e).table.selfId = w.table.selfId := by
  cases e with
  | addSeen n =>
    simp only [World.step, addSeenNode]
    split_ifs <;> simp
  | addVerified n =>
    simp only [World.step, addVerifiedNode]
    split_ifs <;> simp
  | delete n => exact (deleteInBucket_moves _ _ n).selfId_eq
  | initDone => rfl
  | revalidateStart perm =>
    simp only [World.step]
    split <;> rfl
  | revalidateDone ping enr k =>
    simp only [World.step]
    split
    · simp only [revalidate]
      split <;> simp
    · rfl

theorem run_selfId (selfId : ID) (seeds : List Node) (events : List Event) :
    (run selfId seeds events).table.selfId = selfId := by
  have hseeds : ∀ (t : Table) (ns : List Node), (loadSeedNodes t ns).selfId = t.selfId := by
    intro t ns
    induction ns generalizing t with
    | nil => rfl
    | cons n ns ih =>
      rw [loadSeedNodes, List.foldl_cons, ← loadSeedNodes, ih]
      simp only [addSeenNode]
      split_ifs <;> simp
  have hpres : machine.Preserves fun w => w.table.selfId = selfId :=
    fun w e h => (World.step_selfId w e).trans h
  exact machine.run_inv hpres _ events (hseeds _ seeds)

/-- **Every bucket stays consistent in every run**, whatever the interleaving of seen and verified
nodes, deletions and revalidations: the IDs of its entries and replacements are pairwise
distinct (so no node is both), none is the table's own, each is of this bucket by its log
distance, and there are at most `bucketSize` entries and `maxReplacements` replacements. -/
theorem buckets_consistent (selfId : ID) (seeds : List Node) (events : List Event)
    (i : Fin nBuckets) :
    (((run selfId seeds events).table.buckets i).entries.map (·.id) ++
        ((run selfId seeds events).table.buckets i).replacements.map (·.id)).Nodup ∧
      ((run selfId seeds events).table.buckets i).entries.length ≤ bucketSize ∧
      ((run selfId seeds events).table.buckets i).replacements.length ≤ maxReplacements ∧
      ∀ n ∈ ((run selfId seeds events).table.buckets i).entries ++
          ((run selfId seeds events).table.buckets i).replacements,
        n.id ≠ selfId ∧ bucketIndex selfId n.id = i := by
  have h := run_tableInv selfId seeds events i
  unfold BucketInv at h
  rw [run_selfId] at h
  refine ⟨h.nodup, by simpa using h.entries_le, by simpa using h.replacements_le,
    fun n hn => ?_⟩
  apply h.ok n.id
  rw [← List.map_append]
  exact List.mem_map_of_mem hn

/-! ## What the invariant gives the table's readers -/

namespace TableInv

variable {t : Table}

/-- An ID is an entry of one bucket only, its own. -/
theorem bucket_of_mem (h : TableInv t) {j : Fin nBuckets} {n : Node}
    (hn : n ∈ (t.buckets j).entries) : bucketIndex t.selfId n.id = j :=
  ((h j).ok n.id (List.mem_append_left _ (List.mem_map_of_mem hn))).2

theorem nodup_entries (h : TableInv t) (j : Fin nBuckets) :
    ((t.buckets j).entries.map (·.id)).Nodup :=
  (List.nodup_append.mp (h j).nodup).1

/-- **No ID is an entry twice in the whole table.** -/
theorem nodup_allEntries (h : TableInv t) : ((allEntries t).map (·.id)).Nodup := by
  unfold allEntries
  rw [List.map_flatMap, List.nodup_flatMap]
  refine ⟨fun j _ => h.nodup_entries j, ?_⟩
  refine (List.nodup_finRange nBuckets).pairwise_of_forall_ne fun i _ j _ hij => ?_
  -- an ID in two buckets would have two bucket indices
  intro x hxi hxj
  obtain ⟨a, ha, rfl⟩ := List.mem_map.mp hxi
  obtain ⟨b, hb, hab⟩ := List.mem_map.mp hxj
  have hi := h.bucket_of_mem ha
  have hj := h.bucket_of_mem hb
  rw [hab] at hj
  exact hij (hi.symm.trans hj)

end TableInv

theorem find?_id_eq {l : List Node} (hnd : (l.map (·.id)).Nodup) {n : Node} (hn : n ∈ l) :
    l.find? (·.id == n.id) = some n := by
  obtain ⟨e, he⟩ : ∃ e, l.find? (·.id == n.id) = some e := by
    cases hf : l.find? (·.id == n.id) with
    | none => exact absurd (by simp) (List.find?_eq_none.mp hf n hn)
    | some e => exact ⟨e, rfl⟩
  have heq : e.id = n.id := by simpa using List.find?_some he
  rw [he, List.inj_on_of_nodup_map hnd (List.mem_of_find?_eq_some he) hn heq]

/-- **`getNode` finds exactly the entries of the table**, in every run. -/
theorem getNode_eq_some_iff (selfId : ID) (seeds : List Node) (events : List Event) (id : ID)
    (n : Node) :
    getNode (run selfId seeds events).table id = some n ↔
      n ∈ allEntries (run selfId seeds events).table ∧ n.id = id := by
  have h := run_tableInv selfId seeds events
  constructor
  · intro hget
    refine ⟨List.mem_flatMap.mpr ⟨_, List.mem_finRange _, List.mem_of_find?_eq_some hget⟩,
      ?_⟩
    simpa using List.find?_some hget
  · rintro ⟨hn, rfl⟩
    obtain ⟨j, -, hj⟩ := List.mem_flatMap.mp hn
    unfold getNode
    rw [h.bucket_of_mem hj]
    exact find?_id_eq (h.nodup_entries j) hj

theorem shuffle_perm (m : Nat) (draws : Nat → Nat) :
    ∀ (is : List Nat) (a : Array Node), (is.foldl (shuffleStep m draws) a).toList.Perm a.toList
  | [], _ => List.Perm.refl _
  | i :: is, a => by
    rw [List.foldl_cons]
    refine (shuffle_perm m draws is _).trans ?_
    unfold shuffleStep
    split
    · exact Array.perm_iff_toList_perm.mp (Array.swap_perm _ _)
    · exact List.Perm.refl _

/-- **`ReadRandomNodes` returns distinct nodes of the table**: whatever the random draws, in every
run, as many as fit the buffer once the table is initialised, none twice. -/
theorem readRandomNodes_distinct (selfId : ID) (seeds : List Node) (events : List Event)
    (bufLen : Nat) (draws : Nat → Nat) :
    ((readRandomNodes (run selfId seeds events).table bufLen draws).map (·.id)).Nodup ∧
      (∀ n ∈ readRandomNodes (run selfId seeds events).table bufLen draws,
        n ∈ allEntries (run selfId seeds events).table) ∧
      ((run selfId seeds events).table.initDone = true →
        (readRandomNodes (run selfId seeds events).table bufLen draws).length =
          min bufLen (allEntries (run selfId seeds events).table).length) := by
  have h := run_tableInv selfId seeds events
  unfold readRandomNodes
  by_cases hinit : (run selfId seeds events).table.initDone = true
  · simp only [hinit, Bool.not_true, Bool.false_eq_true, if_false]
    -- the shuffle permutes the entries; the copy is a prefix of it
    have hperm := shuffle_perm (allEntries (run selfId seeds events).table).length draws
      (List.range (allEntries (run selfId seeds events).table).length)
      (allEntries (run selfId seeds events).table).toArray
    rw [List.toList_toArray] at hperm
    refine ⟨?_, fun n hn => hperm.subset ((List.take_sublist _ _).subset hn), fun _ => ?_⟩
    · exact ((hperm.map _).nodup_iff.mpr h.nodup_allEntries).sublist
        ((List.take_sublist _ _).map _)
    · rw [List.length_take, hperm.length_eq]
  · simp only [Bool.not_eq_true] at hinit
    simp [hinit]

/-! ## Lookups after deleting -/

/-- **A deleted node is gone**: in every run, after `delete n` no entry has `n`'s ID. -/
theorem getNode_delete (selfId : ID) (seeds : List Node) (events : List Event) (n : Node) :
    getNode (delete (run selfId seeds events).table n) n.id = none := by
  have h := run_tableInv selfId seeds events
  have hm := deleteInBucket_moves (run selfId seeds events).table
    (bucketIndex (run selfId seeds events).table.selfId n.id) n
  unfold getNode
  rw [show delete (run selfId seeds events).table n = deleteInBucket _ _ n from rfl, hm.selfId_eq,
    hm.entries_eq, List.find?_eq_none]
  -- the first entry of the ID went, and the IDs of the bucket are distinct
  intro e he hid
  have hid' : e.id = n.id := by simpa using hid
  have hnd := (h (bucketIndex (run selfId seeds events).table.selfId n.id)).nodup
  have hmem : e.id ∈ (((run selfId seeds events).table.buckets
      (bucketIndex (run selfId seeds events).table.selfId n.id)).entries.map (·.id)).erase n.id := by
    rw [← map_id_deleteNode]
    exact List.mem_map_of_mem he
  rw [hid'] at hmem
  exact (List.nodup_append.mp hnd).1.not_mem_erase hmem

end GoMetadium.P2p
