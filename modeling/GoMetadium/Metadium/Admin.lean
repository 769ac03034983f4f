import Mathlib
import GoMetadium.Lib.GoInt

set_option autoImplicit false

/-! # The governance node set and the miner rotation (`metadium/admin.go`)

The admin of a Metadium node keeps the node set of the governance contract (`ma.nodes`, a map
keyed by node id), the number of blocks a miner mines in a row (`blocksPer`) and its own
entry (`ma.self`). `update` reads the contracts through `getGovData`, which also diffs the
node list it reads against the one held: both are sorted by name and merged with
`strings.Compare` into the added, updated and deleted nodes. `getMinerNodes` picks, for a
height, the first node that is up in name order from the slot `height / blocksPer` on, and
`LogBlock`, after each block this node mines, hands the leader role to that node once
`blocksPer` blocks are mined.

What the contracts answer (`GovReply`) and what the network says about peers and the etcd
leader (`Network`) are inputs. Go's run-time panics (a zero divisor, a nil node, an index
out of range) are `none`.

Names are Go strings, ordered bytewise by both `<` and `strings.Compare`; here they are of
any linearly ordered type, whose `<` and `compare` agree by the laws of `LinearOrder`.
`sort.Slice`, which is not stable, is modelled by `List.mergeSort` on the same order: one of
its results, and for unique names the only one.
-/

namespace GoMetadium.Admin

/-! ## Nodes -/

/-- The status `getMinerNodes` gives a node; a node read from the contract has none. -/
inductive NodeStatus where
  | unset
  | up
  | down
  deriving DecidableEq, Repr

/-- `metaNode`, with the fields the modelled functions read. -/
structure MetaNode (Name : Type) where
  name : Name
  id : String
  ip : String
  port : Int
  status : NodeStatus
  miner : Bool
  deriving DecidableEq, Repr

variable {Name : Type}

/-- `metaNode.eq`: the same name, id, ip and port. -/
def MetaNode.eq [DecidableEq Name] (n m : MetaNode Name) : Bool :=
  decide (n.name = m.name ∧ n.id = m.id ∧ n.ip = m.ip ∧ n.port = m.port)

/-- A `map[string]*metaNode` keyed by node id, as the list of its values. -/
structure NodeMap (Name : Type) where
  nodes : List (MetaNode Name)
  ids_nodup : (nodes.map MetaNode.id).Nodup

/-- The empty map. -/
def NodeMap.empty : NodeMap Name := ⟨[], List.nodup_nil⟩

/-- `m[n.Id] = n`: the entry of that id replaced. -/
def NodeMap.insert (m : NodeMap Name) (n : MetaNode Name) : NodeMap Name :=
  ⟨n :: m.nodes.filter (fun o => o.id ≠ n.id), by
    rw [List.map_cons, List.nodup_cons]
    constructor
    · simp
    · exact m.ids_nodup.sublist (List.filter_sublist.map _)⟩

section Sorting

variable [LinearOrder Name]

/-- `sort.Slice(nodes, func(i, j int) bool { return nodes[i].Name < nodes[j].Name })`. -/
def sortByName (nodes : List (MetaNode Name)) : List (MetaNode Name) :=
  nodes.mergeSort fun a b => decide (a.name ≤ b.name)

end Sorting

/-! ## The admin -/

/-- The addresses of the four governance contracts. -/
structure AdminAddresses (Address : Type) where
  registry : Address
  gov : Address
  staking : Address
  envStorage : Address
  deriving DecidableEq, Repr

/-- `metaAdmin`, with the fields the modelled functions read; `selfId` is `ma.nodeInfo.ID`. -/
structure MetaAdmin (Name Address : Type) where
  addresses : AdminAddresses Address
  selfId : String
  lastBlock : Int
  modifiedBlock : Int
  blocksPer : Int
  gasPrice : Option Nat
  self : Option (MetaNode Name)
  nodes : NodeMap Name
  blocksMined : Int

/-- The admin `StartAdmin` creates, once `run` has read the contract addresses and the node
info: 100 blocks per miner, a gas price of 80 gwei and no node. -/
def StartAdmin {Address : Type} (addresses : AdminAddresses Address) (selfId : String) :
    MetaAdmin Name Address where
  addresses := addresses
  selfId := selfId
  lastBlock := 0
  modifiedBlock := 0
  blocksPer := 100
  gasPrice := some (80 * 10 ^ 9)
  self := none
  nodes := NodeMap.empty
  blocksMined := 0

/-- What the contracts answer at the latest block: the block number (`HeaderByNumber`),
`modifiedBlock`, `getBlocksPer`, `getGasPrice` and the node list `getMetaNodes` returns; a
call that fails is `none`. -/
structure GovReply (Name : Type) where
  blockNum : Option Int
  modifiedBlock : Option Int
  blocksPer : Option Int
  gasPrice : Option Nat
  nodes : Option (List (MetaNode Name))

/-- `govdata`; the default is Go's zero value. -/
structure GovData (Name : Type) where
  blockNum : Int := 0
  modifiedBlock : Int := 0
  blocksPer : Int := 0
  gasPrice : Option Nat := none
  nodes : List (MetaNode Name) := []
  addedNodes : List (MetaNode Name) := []
  updatedNodes : List (MetaNode Name) := []
  deletedNodes : List (MetaNode Name) := []

/-! ## `getGovData` -/

section GovData

variable {Address : Type} [LinearOrder Name]

/-- The merge loop of `getGovData` over the old and the new nodes, both sorted by name: equal
names move both cursors (the new node is updated unless `eq`), the smaller name moves its own
cursor (an old node is deleted, a new one added). The loop stops as soon as one list is used
up and returns what is left of both. -/
def mergeNodes : List (MetaNode Name) → List (MetaNode Name) → GovData Name →
    List (MetaNode Name) × List (MetaNode Name) × GovData Name
  | o :: os, n :: ns, data =>
    match compare o.name n.name with
    | .eq =>
      let data := if !o.eq n then { data with updatedNodes := data.updatedNodes ++ [n] } else data
      mergeNodes os ns data
    | .lt => mergeNodes os (n :: ns) { data with deletedNodes := data.deletedNodes ++ [o] }
    | .gt => mergeNodes (o :: os) ns { data with addedNodes := data.addedNodes ++ [n] }
  | olds, news, data => (olds, news, data)
termination_by olds news => olds.length + news.length

/-- The diff of `getGovData`: both lists sorted by name (`data.nodes` in place), the merge
loop, then the two loops that delete the old nodes and add the new nodes left over. -/
def diffNodes (oldNodes nodes : List (MetaNode Name)) (data : GovData Name) : GovData Name :=
  let oldNodes := sortByName oldNodes
  let nodes := sortByName nodes
  let (olds, news, data) := mergeNodes oldNodes nodes { data with nodes }
  { data with deletedNodes := data.deletedNodes ++ olds, addedNodes := data.addedNodes ++ news }

/-- `getGovData(refresh)` with the answers of the contracts, and whether it returns an error.
Without `refresh` it stops, with no error, at a block already seen and at an unchanged
`modifiedBlock`; a failed `getBlocksPer` keeps the old value. -/
def getGovData (ma : MetaAdmin Name Address) (refresh : Bool) (reply : GovReply Name) :
    GovData Name × Bool :=
  match reply.blockNum with
  | none => ({}, true)
  | some blockNum =>
    let data : GovData Name := { blockNum }
    if !refresh && blockNum ≤ ma.lastBlock then (data, false)
    else
      match reply.modifiedBlock with
      | none => (data, true)
      | some modifiedBlock =>
        let data := { data with modifiedBlock }
        if !refresh && ma.modifiedBlock = modifiedBlock then (data, false)
        else
          let data := { data with blocksPer := reply.blocksPer.getD ma.blocksPer }
          match reply.gasPrice with
          | none => (data, true)
          | some gasPrice =>
            let data := { data with gasPrice := some gasPrice }
            match reply.nodes with
            | none => (data, true)
            | some nodes => (diffNodes ma.nodes.nodes nodes data, false)

end GovData

/-! ## `update` -/

/-- One turn of the loop of `update` that indexes the new nodes by id and picks out its own. -/
def indexNode (selfId : String) (acc : NodeMap Name × Option (MetaNode Name))
    (i : MetaNode Name) : NodeMap Name × Option (MetaNode Name) :=
  (acc.1.insert i, if i.id = selfId then some i else acc.2)

section Update

variable {Address : Type} [DecidableEq Address] [LinearOrder Name]

/-- `update()` with the addresses `getAdminAddresses` returns and the contracts' answers: a
change of addresses forces a refresh; new governance data (a refresh or a changed
`modifiedBlock`) replaces `modifiedBlock`, `blocksPer`, the gas price and the node map, and
sets `self` to its own node if the new list has it. `self` is never cleared. -/
def update (ma : MetaAdmin Name Address) (addresses : Option (AdminAddresses Address))
    (reply : GovReply Name) : MetaAdmin Name Address :=
  match addresses with
  | none => ma
  | some addresses =>
    let refresh := decide (addresses ≠ ma.addresses)
    let ma := { ma with addresses }
    let (data, failed) := getGovData ma refresh reply
    let ma :=
      if !failed && (refresh || (data.modifiedBlock ≠ 0 && ma.modifiedBlock ≠ data.modifiedBlock))
      then
        let (nodes, self) := data.nodes.foldl (indexNode ma.selfId) (NodeMap.empty, ma.self)
        { ma with modifiedBlock := data.modifiedBlock, blocksPer := data.blocksPer,
                  gasPrice := data.gasPrice, self, nodes }
      else ma
    if data.blockNum ≠ 0 then { ma with lastBlock := data.blockNum } else ma

end Update

/-! ## `getMinerNodes` and `LogBlock` -/

/-- What the node learns from the network: which peers are up (`isPeerUp`), the etcd leader
(`etcdLeader`) and whether handing it the leader role succeeds (`etcdMoveLeader`). -/
structure Network (Name : Type) where
  isPeerUp : String → Bool
  leader : Option (MetaNode Name)
  moveLeader : Name → Bool

/-- The status `getMinerNodes` gives a node: up if it is this node or a connected peer. -/
def markStatus (self : Option (MetaNode Name)) (net : Network Name) (n : MetaNode Name) :
    MetaNode Name :=
  { n with status := if self.any (fun s => decide (n.id = s.id)) || net.isPeerUp n.id then .up
                     else .down }

/-- The loop of `getMinerNodes`, `j` turns left at index `i`: it stops once both are found; the
first node with the leader's name becomes the miner, and is marked so in the slice, and the
first node that is up becomes next. -/
def scanMiners [DecidableEq Name] (leader : Option (MetaNode Name)) :
    Nat → Nat → List (MetaNode Name) → Option (MetaNode Name) → Option (MetaNode Name) →
      Option (Option (MetaNode Name) × Option (MetaNode Name) × List (MetaNode Name))
  | 0, _, nodes, miner, next => some (miner, next, nodes)
  | j + 1, i, nodes, miner, next =>
    if miner.isSome && next.isSome then some (miner, next, nodes)
    else
      match nodes[i]? with
      | none => none
      | some n =>
        let isMiner := miner.isNone && leader.any fun l => decide (n.name = l.name)
        let n := if isMiner then { n with miner := true } else n
        let nodes := if isMiner then nodes.set i n else nodes
        let miner := if isMiner then some n else miner
        let next := if next.isNone && n.status = .up then some n else next
        scanMiners leader j ((i + 1) % nodes.length) nodes miner next

section Miner

variable {Address : Type} [LinearOrder Name]

/-- `getMinerNodes(height)`: the miner (the etcd leader's node), the next miner and the nodes
sorted by name with their status. -/
def getMinerNodes (ma : MetaAdmin Name Address) (net : Network Name) (height : Int) :
    Option (Option (MetaNode Name) × Option (MetaNode Name) × List (MetaNode Name)) :=
  let nodes := ma.nodes.nodes
  if nodes.length = 0 then some (none, none, nodes)
  else
    let nodes := (sortByName nodes).map (markStatus ma.self net)
    -- ix := height / admin.blocksPer % len(nodes)
    (Go.div height ma.blocksPer).bind fun q =>
      let ix := q.tmod nodes.length
      if ix < 0 then none else scanMiners net.leader nodes.length ix.toNat nodes none none

/-- `LogBlock(height, hash)` after this node mined the block `height`: once `blocksPer` blocks
are mined and the next height starts a slot, the leader role goes to the next miner. -/
def LogBlock (ma : MetaAdmin Name Address) (net : Network Name) (height : Int) :
    Option (MetaAdmin Name Address) :=
  match ma.self with
  | none => some ma
  | some self =>
    let ma := { ma with blocksMined := ma.blocksMined + 1 }
    let height := height + 1
    if ma.blocksPer ≤ ma.blocksMined then
      (Go.mod height ma.blocksPer).bind fun r =>
        if r = 0 then
          (getMinerNodes ma net height).bind fun (_, next, _) =>
            match next with
            | none => none
            | some next =>
              if next.id = self.id then some ma
              else if net.moveLeader next.name then some { ma with blocksMined := 0 }
              else some ma
        else some ma
    else some ma

end Miner

end GoMetadium.Admin
