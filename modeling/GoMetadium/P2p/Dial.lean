import GoMetadium.P2p.Netutil
import GoMetadium.P2p.Enode
import GoMetadium.Lib.Heap
import GoMetadium.Lib.AListSum

/-!
# The dialer of the P2P server

`p2p/dial.go`, with the history heap of `p2p/util.go`: the state `dialstate` that the server's
loop asks for new tasks. `newTasks` dials every static node not connected, makes dynamic dials
from the last discovery results (and, with no peer at all, of a bootnode) while fewer than
`maxDynDials` dynamic connections exist or are being dialed, asks for a discovery lookup when
more candidates are needed and none runs, and for a wait for the dial history to expire when
nothing else is to be done. `checkDial` refuses a node being dialed, one connected, the local
node, one outside the network restriction and one dialed recently (the history `hist`, an
`expHeap`); `taskDone` puts a dialed node in the history.

Go maps are `AList`s, iterated in the order of their entries, and the history is a slice under
`container/heap` (`GoHeap`). The dialer's invariant against the tasks it has handed out
(`DialerInv`) is kept by each step of `newTasks` (`newTasks_inv`) and by each task done
(`DialerInv.taskDone`): the dial tasks out are exactly the entries of `dialing`, one discovery
task is out exactly while `lookupRunning`, and the nodes connected or being dialed dynamically
stay within `maxDynDials`. For the last, the count `newTasks` makes counts a node twice while it
is connected and its dial not yet done; the bound holds of the union of the two sets, since that
count is never below the union's size and a new dynamic dial is made only while it is below
`maxDynDials`. The history stays a heap, `expire` pops only what expired (`expExpire_spec`), and
`newTasks` dials no node the history holds (`newTasks_keepsHist`). The server's loop
(`P2p.Server`) rests on these.
-/

set_option autoImplicit false

namespace GoMetadium.P2p

/-! ## Connection flags -/

/-- `connFlag`, a 32-bit set of flags. -/
abbrev ConnFlag := BitVec 32

def dynDialedConn : ConnFlag := 1
def staticDialedConn : ConnFlag := 2
def inboundConn : ConnFlag := 4
def trustedConn : ConnFlag := 8

/-- `c.is(f)`: a flag of `f` is set. -/
def connIs (flags f : ConnFlag) : Bool := flags &&& f != 0

/-- `c.set(f, val)`; its loop of compare-and-swap is one atomic step here. -/
def connSet (flags f : ConnFlag) (val : Bool) : ConnFlag :=
  if val then flags ||| f else flags &&& ~~~f

/-! ## Nodes, tasks and the dial history -/

/-- An `enode.Node`, by what the dialer reads of it. -/
structure ENode where
  id : ID
  ip : IP
  deriving DecidableEq

/-- `dialTask`. Its `lastResolved` and `resolveDelay` are read only by the resolution of a static
node's endpoint, which does not change its destination's ID. -/
structure DialTask where
  flags : ConnFlag
  dest : ENode
  deriving DecidableEq

/-- A `task`: `*dialTask`, `*discoverTask` (its `results` come with its completion) or
`waitExpireTask`. -/
inductive Task where
  | dial (t : DialTask)
  | discover (want : Int)
  | waitExpire (d : Int)
  deriving DecidableEq

/-- Times and durations, in nanoseconds. -/
abbrev Time := Int

def inboundThrottleTime : Int := 30 * 1000000000

def dialHistoryExpiration : Int := inboundThrottleTime + 5 * 1000000000

def fallbackInterval : Int := 20 * 1000000000

def maxActiveDialTasks : Nat := 16

def defaultDialRatio : Nat := 3

/-- `expItem`: the history keys a node by its ID's bytes. -/
structure ExpItem where
  item : ID
  exp : Time
  deriving DecidableEq

/-- `expHeap.Less`: `h[i].exp.Before(h[j].exp)`. -/
def expLess (h : List ExpItem) (i j : Nat) : Bool :=
  match h[i]?, h[j]? with
  | some a, some b => decide (a.exp < b.exp)
  | _, _ => false

/-- `expHeap.add`: `heap.Push`. -/
def expAdd (h : List ExpItem) (item : ID) (exp : Time) : List ExpItem :=
  GoHeap.slicePush expLess h ⟨item, exp⟩

/-- `expHeap.contains`. -/
def expContains (h : List ExpItem) (item : ID) : Bool := h.any (·.item == item)

/-- The loop of `expHeap.expire`, on fuel: `heap.Pop` while the first item expired before
`now`. -/
def expireLoop (now : Time) : Nat → List ExpItem → List ExpItem
  | 0, h => h
  | fuel + 1, h =>
    match h[0]? with
    | some top => if top.exp < now then expireLoop now fuel (GoHeap.slicePop expLess h).2 else h
    | none => h

/-- `expHeap.expire(now)`: every pop shortens the heap, so its length is fuel enough. -/
def expExpire (h : List ExpItem) (now : Time) : List ExpItem := expireLoop now h.length h

/-- `Netlist.Contains`: a nil list contains nothing. -/
def netlistContains (l : Option (List IPNet)) (ip : IP) : Bool :=
  match l with
  | none => false
  | some nets => nets.any (·.contains ip)

/-! ## The dialer -/

/-- A Go map keyed by node ID whose values are connection flags (`dialing`, and `peers` read
through each peer's flags). -/
abbrev FlagMap := AList fun _ : ID => ConnFlag

/-- `dialstate`. -/
structure DialState where
  maxDynDials : Int
  netrestrict : Option (List IPNet)
  self : ID
  bootnodes : List ENode
  /-- `start`, `none` while it is the zero time. -/
  start : Option Time
  lookupRunning : Bool
  dialing : FlagMap
  lookupBuf : List ENode
  static : AList fun _ : ID => DialTask
  hist : List ExpItem

namespace DialState

/-- `addStatic`: a new task replaces the old one. -/
def addStatic (s : DialState) (n : ENode) : DialState :=
  { s with static := s.static.insert n.id ⟨staticDialedConn, n⟩ }

/-- `removeStatic`. -/
def removeStatic (s : DialState) (n : ENode) : DialState :=
  { s with static := s.static.erase n.id }

end DialState

/-- `newDialState`, with `cfg.StaticNodes` added in order. -/
def newDialState (self : ID) (maxdyn : Int) (netrestrict : Option (List IPNet))
    (bootnodes staticNodes : List ENode) : DialState :=
  staticNodes.foldl DialState.addStatic
    ⟨maxdyn, netrestrict, self, bootnodes, none, false, ∅, [], ∅, []⟩

/-- The errors of `checkDial`. -/
inductive DialError where
  | self
  | alreadyDialing
  | alreadyConnected
  | recentlyDialed
  | notWhitelisted
  deriving DecidableEq

namespace DialState

/-- `checkDial(n, peers)`. -/
def checkDial (s : DialState) (n : ENode) (peers : FlagMap) : Option DialError :=
  if n.id ∈ s.dialing then some .alreadyDialing
  else if n.id ∈ peers then some .alreadyConnected
  else if n.id = s.self then some .self
  else if s.netrestrict.isSome && !netlistContains s.netrestrict n.ip then some .notWhitelisted
  else if expContains s.hist n.id then some .recentlyDialed
  else none

/-- `addDial(flag, n)` in `newTasks`: the dial, when `checkDial` allows it. -/
def addDial (s : DialState) (peers : FlagMap) (flag : ConnFlag) (n : ENode) :
    DialState × Option Task :=
  match s.checkDial n peers with
  | some _ => (s, none)
  | none => ({ s with dialing := s.dialing.insert n.id flag }, some (.dial ⟨flag, n⟩))

/-- The loop of `newTasks` over the static nodes, in the order of `entries`: a node that may be
dialed is dialed with its task, one outside the restriction or the local node is dropped. -/
def staticLoop (peers : FlagMap) :
    List (Σ _ : ID, DialTask) → DialState × List Task → DialState × List Task
  | [], acc => acc
  | e :: rest, (s, tasks) =>
    match s.checkDial e.2.dest peers with
    | some .notWhitelisted | some .self =>
      staticLoop peers rest ({ s with static := s.static.erase e.2.dest.id }, tasks)
    | none => staticLoop peers rest ({ s with dialing := s.dialing.insert e.1 e.2.flags },
        tasks ++ [.dial e.2])
    | some _ => staticLoop peers rest (s, tasks)

/-- The number of entries with `dynDialedConn` in a map. -/
def dynCount (m : FlagMap) : Int := m.sumBy fun _ f => if connIs f dynDialedConn then 1 else 0

/-- The fallback to a bootnode in `newTasks`: with no peer and dynamic dials needed after
`fallbackInterval`, the first bootnode moves last and is dialed. -/
def bootnodeDial (peers : FlagMap) (now : Time) :
    DialState × List Task × Int → DialState × List Task × Int
  | (s', tasks, need) =>
    if peers.entries = [] ∧ s'.bootnodes ≠ [] ∧ 0 < need ∧
        fallbackInterval < now - s'.start.getD now then
      match s'.bootnodes with
      | b :: bs =>
        match { s' with bootnodes := bs ++ [b] }.addDial peers dynDialedConn b with
        | (s', some t) => (s', tasks ++ [t], need - 1)
        | (s', none) => (s', tasks, need)
      | [] => (s', tasks, need)
    else (s', tasks, need)

/-- The loop of `newTasks` over the discovery results: dynamic dials while some are needed.
Gives what is left of `lookupBuf`. -/
def lookupLoop (peers : FlagMap) :
    List ENode → DialState × List Task × Int → DialState × List Task × Int × List ENode
  | [], (s, tasks, need) => (s, tasks, need, [])
  | n :: ns, (s, tasks, need) =>
    if 0 < need then
      match s.addDial peers dynDialedConn n with
      | (s, some t) => lookupLoop peers ns (s, tasks ++ [t], need - 1)
      | (s, none) => lookupLoop peers ns (s, tasks, need)
    else (s, tasks, need, n :: ns)

/-- `newTasks(nRunning, peers, now)`: the dialer after it, and the new tasks. -/
def newTasks (s : DialState) (nRunning : Nat) (peers : FlagMap) (now : Time) :
    DialState × List Task :=
  let s := if s.start.isNone then { s with start := some now } else s
  let s := { s with hist := expExpire s.hist now }
  let st := staticLoop peers s.static.entries (s, [])
  let need := st.1.maxDynDials - dynCount peers - dynCount st.1.dialing
  let bd := bootnodeDial peers now (st.1, st.2, need)
  let lk := lookupLoop peers bd.1.lookupBuf bd
  let s := { lk.1 with lookupBuf := lk.2.2.2 }
  let tasks := lk.2.1
  let need := lk.2.2.1
  -- a discovery lookup if more candidates are needed
  let (s, tasks) :=
    if (s.lookupBuf.length : Int) < need ∧ s.lookupRunning = false then
      ({ s with lookupRunning := true }, tasks ++ [.discover (need - s.lookupBuf.length)])
    else (s, tasks)
  -- a wait for the history to expire if nothing else will wake the loop
  let tasks :=
    if nRunning = 0 ∧ tasks = [] ∧ 0 < s.hist.length then
      match s.hist[0]? with
      | some top => tasks ++ [.waitExpire (top.exp - now)]
      | none => tasks
    else tasks
  (s, tasks)

/-- `taskDone(t, now)`: a dial goes into the history and out of `dialing`; a lookup's results
are kept. -/
def taskDone (s : DialState) (t : Task) (results : List ENode) (now : Time) : DialState :=
  match t with
  | .dial d =>
    { s with hist := expAdd s.hist d.dest.id (now + dialHistoryExpiration),
             dialing := s.dialing.erase d.dest.id }
  | .discover _ => { s with lookupRunning := false, lookupBuf := s.lookupBuf ++ results }
  | .waitExpire _ => s

end DialState

/-! ## Flags and task lists -/

/-- Setting or clearing `f` leaves the flags of `g` as they were when the two share no bit: a
change of trust never changes whether a connection was dialed dynamically, or is inbound. -/
theorem connIs_connSet (flags f g : ConnFlag) (val : Bool) (hfg : f &&& g = 0) :
    connIs (connSet flags f val) g = connIs flags g := by
  unfold connIs connSet
  cases val with
  | true =>
    rw [if_pos rfl, BitVec.and_or_distrib_right, hfg]
    simp
  | false =>
    -- the bits of `g` lie outside `f`, so clearing `f` keeps them
    have hg : ~~~f &&& g = g := by
      ext i hi
      have hi' : (f &&& g)[i] = false := by simp [hfg]
      rw [BitVec.getElem_and] at hi'
      rw [BitVec.getElem_and, BitVec.getElem_not]
      cases h : f[i] <;> simp_all
    rw [if_neg Bool.false_ne_true, BitVec.and_assoc, hg]

namespace Task

/-- The `dialTask` of a task, if it is one. -/
def dial? : Task → Option DialTask
  | .dial t => some t
  | _ => none

def isDiscover : Task → Bool
  | .discover _ => true
  | _ => false

def isWait : Task → Bool
  | .waitExpire _ => true
  | _ => false

end Task

/-- The nodes the dial tasks of a list dial. -/
def dialIds (ts : List Task) : List ID := (ts.filterMap Task.dial?).map (·.dest.id)

@[simp] theorem dialIds_append (ts ts' : List Task) :
    dialIds (ts ++ ts') = dialIds ts ++ dialIds ts' := by
  simp [dialIds]

@[simp] theorem dialIds_nil : dialIds [] = [] := rfl

@[simp] theorem dialIds_cons_dial (t : DialTask) (ts : List Task) :
    dialIds (.dial t :: ts) = t.dest.id :: dialIds ts := rfl

@[simp] theorem dialIds_cons_discover (want : Int) (ts : List Task) :
    dialIds (.discover want :: ts) = dialIds ts := rfl

@[simp] theorem dialIds_cons_waitExpire (d : Int) (ts : List Task) :
    dialIds (.waitExpire d :: ts) = dialIds ts := rfl

theorem dialIds_perm {ts ts' : List Task} (h : ts.Perm ts') : (dialIds ts).Perm (dialIds ts') :=
  (h.filterMap _).map _

/-- The nodes of a map whose connection or dial has `dynDialedConn`. -/
def dynIds (m : FlagMap) : Finset ID := m.keysWhere fun _ f => connIs f dynDialedConn

theorem dynCount_eq_card (m : FlagMap) : DialState.dynCount m = (dynIds m).card :=
  AList.sumBy_ite_eq_card m

theorem dynIds_insert_of_notMem {m : FlagMap} {k : ID} (hk : k ∉ m) (f : ConnFlag) :
    dynIds (m.insert k f) = if connIs f dynDialedConn then insert k (dynIds m) else dynIds m :=
  AList.keysWhere_insert_of_notMem hk f

theorem dynIds_erase_subset (m : FlagMap) (k : ID) : dynIds (m.erase k) ⊆ dynIds m :=
  AList.keysWhere_erase_subset

theorem mem_dialIds {t : DialTask} {ts : List Task} (ht : Task.dial t ∈ ts) :
    t.dest.id ∈ dialIds ts :=
  List.mem_map.mpr ⟨t, List.mem_filterMap.mpr ⟨.dial t, ht, rfl⟩, rfl⟩

/-! ## The dialer's checks -/

theorem checkDial_eq_none {s : DialState} {n : ENode} {peers : FlagMap}
    (h : s.checkDial n peers = none) :
    n.id ∉ s.dialing ∧ n.id ∉ peers ∧ n.id ≠ s.self ∧ expContains s.hist n.id = false := by
  unfold DialState.checkDial at h
  split_ifs at h with h₁ h₂ h₃ h₄ h₅
  exact ⟨h₁, h₂, h₃, Bool.eq_false_iff.mpr h₅⟩

/-- `addDial` either dials a node `checkDial` allows, or does nothing. -/
theorem addDial_cases (s : DialState) (peers : FlagMap) (flag : ConnFlag) (n : ENode) :
    (s.checkDial n peers = none ∧ s.addDial peers flag n =
      ({ s with dialing := s.dialing.insert n.id flag }, some (.dial ⟨flag, n⟩))) ∨
    s.addDial peers flag n = (s, none) := by
  unfold DialState.addDial
  cases h : s.checkDial n peers with
  | none => exact .inl ⟨rfl, rfl⟩
  | some _ => exact .inr rfl

theorem addDial_eq_none {s s' : DialState} {peers : FlagMap} {flag : ConnFlag} {n : ENode}
    (h : s.addDial peers flag n = (s', none)) : s' = s := by
  rcases addDial_cases s peers flag n with ⟨-, h'⟩ | h'
  · rw [h] at h'
    cases h'
  · rw [h] at h'
    exact (Prod.mk.inj h').1

/-! ## The dialer's invariant

`DialerInv` relates the dialer to the tasks it has handed out that are not yet done (`out`, the
running and the queued ones) and to the peers. Every change to the dialer is one of a few
steps (a dial added, a static entry added or erased, a discovery task or a wait handed out, a
task done), and each step keeps it; `newTasks` is a sequence of such steps, with one loop
invariant more for its count of dynamic dials (`Budget`). -/

/-- **The dialer's invariant.** Every static entry is a static dial of its own key; the dial
tasks out are of distinct nodes, exactly the keys of `dialing`, each with the flags `dialing`
records, and never of the local node; one discovery task is out exactly while `lookupRunning`,
and at most one wait; and the nodes connected or being dialed dynamically are at most
`maxDyn`. -/
structure DialerInv (selfId : ID) (maxDyn : Nat) (peers : FlagMap) (s : DialState)
    (out : List Task) : Prop where
  self_eq : s.self = selfId
  maxDyn_eq : s.maxDynDials = maxDyn
  static_ok :
    ∀ id t, s.static.lookup id = some t → t.dest.id = id ∧ t.flags = staticDialedConn
  keys_perm : (dialIds out).Perm s.dialing.keys
  lookup_eq : ∀ t, Task.dial t ∈ out → s.dialing.lookup t.dest.id = some t.flags
  self_notMem : selfId ∉ s.dialing
  discover_eq : out.countP Task.isDiscover = if s.lookupRunning then 1 else 0
  wait_le : out.countP Task.isWait ≤ 1
  dyn_le : (dynIds peers ∪ dynIds s.dialing).card ≤ maxDyn

namespace DialerInv

variable {selfId : ID} {maxDyn : Nat} {peers : FlagMap} {s : DialState} {out : List Task}

/-- The invariant reads the tasks out as a multiset. -/
theorem perm (h : DialerInv selfId maxDyn peers s out) {out' : List Task} (hp : out.Perm out') :
    DialerInv selfId maxDyn peers s out' :=
  { h with
    keys_perm := (dialIds_perm hp).symm.trans h.keys_perm
    lookup_eq := fun t ht => h.lookup_eq t (hp.mem_iff.mpr ht)
    discover_eq := hp.countP_eq _ ▸ h.discover_eq
    wait_le := hp.countP_eq _ ▸ h.wait_le }

/-- A dial of a node neither dialed nor the local node, within the dynamic bound. -/
theorem dial (h : DialerInv selfId maxDyn peers s out) {n : ENode} {flag : ConnFlag}
    (hfresh : n.id ∉ s.dialing) (hself : n.id ≠ selfId)
    (hdyn : (dynIds peers ∪ dynIds (s.dialing.insert n.id flag)).card ≤ maxDyn) :
    DialerInv selfId maxDyn peers { s with dialing := s.dialing.insert n.id flag }
      (out ++ [.dial ⟨flag, n⟩]) where
  self_eq := h.self_eq
  maxDyn_eq := h.maxDyn_eq
  static_ok := h.static_ok
  keys_perm := by
    rw [dialIds_append, dialIds_cons_dial, AList.keys_insert_of_notMem hfresh]
    exact (List.perm_append_singleton _ _).trans (h.keys_perm.cons _)
  lookup_eq := by
    intro t ht
    rcases List.mem_append.mp ht with ht | ht
    · -- an older dial: its node is in `dialing`, so it is not `n`
      have hne : t.dest.id ≠ n.id := fun he =>
        hfresh (AList.lookup_isSome.mp (Option.isSome_of_eq_some (he ▸ h.lookup_eq t ht)))
      rw [AList.lookup_insert_ne hne]
      exact h.lookup_eq t ht
    · obtain rfl := Task.dial.inj (List.mem_singleton.mp ht)
      exact AList.lookup_insert _
  self_notMem := by
    rw [AList.mem_insert]
    rintro (he | he)
    · exact hself he.symm
    · exact h.self_notMem he
  discover_eq := by simpa [List.countP_append, Task.isDiscover] using h.discover_eq
  wait_le := by simpa [List.countP_append, Task.isWait] using h.wait_le
  dyn_le := hdyn

/-- A discovery task handed out while none runs. -/
theorem discover (h : DialerInv selfId maxDyn peers s out) (hr : s.lookupRunning = false)
    (want : Int) :
    DialerInv selfId maxDyn peers { s with lookupRunning := true } (out ++ [.discover want]) :=
  { h with
    keys_perm := by simpa using h.keys_perm
    lookup_eq := fun t ht => h.lookup_eq t (by simpa using ht)
    discover_eq := by simpa [List.countP_append, Task.isDiscover, hr] using h.discover_eq
    wait_le := by simpa [List.countP_append, Task.isWait] using h.wait_le }

/-- A wait handed out while no other is out. -/
theorem waitExpire (h : DialerInv selfId maxDyn peers s out) (hw : out.countP Task.isWait = 0)
    (d : Int) : DialerInv selfId maxDyn peers s (out ++ [.waitExpire d]) :=
  { h with
    keys_perm := by simpa using h.keys_perm
    lookup_eq := fun t ht => h.lookup_eq t (by simpa using ht)
    discover_eq := by simpa [List.countP_append, Task.isDiscover] using h.discover_eq
    wait_le := by simp [List.countP_append, Task.isWait, hw] }

theorem eraseStatic (h : DialerInv selfId maxDyn peers s out) (k : ID) :
    DialerInv selfId maxDyn peers { s with static := s.static.erase k } out :=
  { h with
    static_ok := fun id t ht => by
      by_cases hk : id = k
      · subst hk
        simp at ht
      · exact h.static_ok id t (by rwa [AList.lookup_erase_ne hk] at ht) }

theorem addStatic (h : DialerInv selfId maxDyn peers s out) (n : ENode) :
    DialerInv selfId maxDyn peers (s.addStatic n) out :=
  { h with
    static_ok := fun id t ht => by
      by_cases hk : id = n.id
      · subst hk
        rw [DialState.addStatic, AList.lookup_insert, Option.some.injEq] at ht
        subst ht
        exact ⟨rfl, rfl⟩
      · exact h.static_ok id t (by rwa [DialState.addStatic, AList.lookup_insert_ne hk] at ht) }

end DialerInv

/-! ## The loops of `newTasks` -/

/-- The count `newTasks` keeps of the dynamic dials still to make: what `maxDyn` leaves after the
dynamic peers and the dynamic dials. -/
def Budget (maxDyn : Nat) (peers : FlagMap) (s : DialState) (need : Int) : Prop :=
  need = maxDyn - (dynIds peers).card - (dynIds s.dialing).card

section Loops

variable {selfId : ID} {maxDyn : Nat} {peers : FlagMap}

/-- A dynamic dial made while some are needed keeps the invariant and the budget: it adds one
node to the dynamic dials and none that was connected, so the union of the two grows by one
while their sum stays within `maxDyn`. -/
theorem DialerInv.dynDial {s : DialState} {out : List Task}
    (h : DialerInv selfId maxDyn peers s out) {need : Int} (hb : Budget maxDyn peers s need)
    (hneed : 0 < need) {n : ENode} {s' : DialState} {t : Task}
    (hadd : s.addDial peers dynDialedConn n = (s', some t)) :
    DialerInv selfId maxDyn peers s' (out ++ [t]) ∧ Budget maxDyn peers s' (need - 1) := by
  rcases addDial_cases s peers dynDialedConn n with ⟨hc, hadd'⟩ | hadd'
  · rw [hadd, Prod.mk.injEq, Option.some.injEq] at hadd'
    obtain ⟨rfl, rfl⟩ := hadd'
    obtain ⟨hfresh, -, hself, -⟩ := checkDial_eq_none hc
    have hnew : n.id ∉ dynIds s.dialing := fun hm => hfresh (AList.mem_of_mem_keysWhere hm)
    have hcard : (dynIds (s.dialing.insert n.id dynDialedConn)).card =
        (dynIds s.dialing).card + 1 := by
      rw [dynIds_insert_of_notMem hfresh, if_pos (by decide), Finset.card_insert_of_notMem hnew]
    have hu := Finset.card_union_le (dynIds peers) (dynIds (s.dialing.insert n.id dynDialedConn))
    unfold Budget at hb ⊢
    constructor
    · exact h.dial hfresh (h.self_eq ▸ hself) (by omega)
    · dsimp only
      omega
  · rw [hadd] at hadd'
    cases hadd'

/-- The loop over the static nodes keeps the invariant: a static dial is of a node not dialed,
and adds no dynamic one. -/
theorem staticLoop_inv (base : List Task) :
    ∀ (L : List (Σ _ : ID, DialTask)) (s : DialState) (tasks : List Task),
      (∀ e ∈ L, e.2.dest.id = e.1 ∧ e.2.flags = staticDialedConn) →
      DialerInv selfId maxDyn peers s (base ++ tasks) →
      DialerInv selfId maxDyn peers (DialState.staticLoop peers L (s, tasks)).1
        (base ++ (DialState.staticLoop peers L (s, tasks)).2)
  | [], _, _, _, h => h
  | ⟨k, ⟨flags, n⟩⟩ :: rest, s, tasks, hL, h => by
    obtain ⟨hk, hflags⟩ : n.id = k ∧ flags = staticDialedConn := hL _ List.mem_cons_self
    have hrest := fun e he => hL e (List.mem_cons_of_mem _ he)
    subst hk hflags
    unfold DialState.staticLoop
    split
    · exact staticLoop_inv base rest _ tasks hrest (h.eraseStatic _)
    · exact staticLoop_inv base rest _ tasks hrest (h.eraseStatic _)
    · -- the node may be dialed
      rename_i hc
      obtain ⟨hfresh, -, hself, -⟩ := checkDial_eq_none hc
      have hdyn : dynIds (s.dialing.insert n.id staticDialedConn) = dynIds s.dialing := by
        rw [dynIds_insert_of_notMem hfresh, if_neg (by decide)]
      apply staticLoop_inv base rest _ _ hrest
      rw [← List.append_assoc]
      exact h.dial hfresh (h.self_eq ▸ hself) (by rw [hdyn]; exact h.dyn_le)
    · exact staticLoop_inv base rest s tasks hrest h

/-- The loop over the discovery results keeps the invariant and the budget, by induction on the
results left. -/
theorem lookupLoop_inv (base : List Task) :
    ∀ (L : List ENode) (s : DialState) (tasks : List Task) (need : Int),
      DialerInv selfId maxDyn peers s (base ++ tasks) → Budget maxDyn peers s need →
      DialerInv selfId maxDyn peers (DialState.lookupLoop peers L (s, tasks, need)).1
          (base ++ (DialState.lookupLoop peers L (s, tasks, need)).2.1) ∧
        Budget maxDyn peers (DialState.lookupLoop peers L (s, tasks, need)).1
          (DialState.lookupLoop peers L (s, tasks, need)).2.2.1
  | [], _, _, _, h, hb => ⟨h, hb⟩
  | n :: ns, s, tasks, need, h, hb => by
    unfold DialState.lookupLoop
    split_ifs with hneed
    · split
      · -- a dial: one needed less
        rename_i s' t hadd
        obtain ⟨h', hb'⟩ := h.dynDial hb hneed hadd
        rw [List.append_assoc] at h'
        exact lookupLoop_inv base ns s' _ _ h' hb'
      · rename_i s' hadd
        obtain rfl := addDial_eq_none hadd
        exact lookupLoop_inv base ns _ tasks need h hb
    · exact ⟨h, hb⟩

/-- The fallback to a bootnode keeps the invariant and the budget: the rotation of the
bootnodes is outside both. -/
theorem bootnodeDial_inv (base : List Task) (now : Time) (s : DialState) (tasks : List Task)
    (need : Int) (h : DialerInv selfId maxDyn peers s (base ++ tasks))
    (hb : Budget maxDyn peers s need) :
    DialerInv selfId maxDyn peers (DialState.bootnodeDial peers now (s, tasks, need)).1
        (base ++ (DialState.bootnodeDial peers now (s, tasks, need)).2.1) ∧
      Budget maxDyn peers (DialState.bootnodeDial peers now (s, tasks, need)).1
        (DialState.bootnodeDial peers now (s, tasks, need)).2.2 := by
  dsimp only [DialState.bootnodeDial]
  split_ifs with hc
  · obtain ⟨-, -, hneed, -⟩ := hc
    split
    · rename_i b bs _
      have hr : DialerInv selfId maxDyn peers { s with bootnodes := bs ++ [b] } (base ++ tasks) :=
        { h with }
      split
      · rename_i s' t hadd
        obtain ⟨h', hb'⟩ := hr.dynDial hb hneed hadd
        rw [List.append_assoc] at h'
        exact ⟨h', hb'⟩
      · rename_i s' hadd
        obtain rfl := addDial_eq_none hadd
        exact ⟨hr, hb⟩
    · exact ⟨h, hb⟩
  · exact ⟨h, hb⟩

/-- **`newTasks` keeps the dialer's invariant**, with the tasks it hands out added to those out:
its phases are the loops above, with the count of dynamic dials computed after the static
ones, then a discovery task only while none runs, and a wait only when no task is out. -/
theorem newTasks_inv {s : DialState} {out : List Task} (h : DialerInv selfId maxDyn peers s out)
    (now : Time) :
    DialerInv selfId maxDyn peers (s.newTasks out.length peers now).1
      (out ++ (s.newTasks out.length peers now).2) := by
  unfold DialState.newTasks
  lift_lets
  intro s₁ s₂ st need bd lk src s₃ tasks need₃
  -- the start time and the history are outside the invariant
  have h₁ : DialerInv selfId maxDyn peers s₁ out := by
    show DialerInv selfId maxDyn peers (if s.start.isNone then _ else s) out
    split
    · exact { h with }
    · exact h
  have h₂ : DialerInv selfId maxDyn peers s₂ out := { h₁ with }
  have hst : DialerInv selfId maxDyn peers st.1 (out ++ st.2) := by
    refine staticLoop_inv out s₂.static.entries s₂ [] (fun e he => ?_)
      (by rwa [List.append_nil])
    exact h₂.static_ok e.1 e.2 (AList.mem_lookup_iff.mpr he)
  have hbud : Budget maxDyn peers st.1 need := by
    unfold Budget
    simp only [need, dynCount_eq_card, hst.maxDyn_eq]
  have hbd := bootnodeDial_inv out now st.1 st.2 need hst hbud
  have hlk := lookupLoop_inv out bd.1.lookupBuf bd.1 bd.2.1 bd.2.2 hbd.1 hbd.2
  have h₃ : DialerInv selfId maxDyn peers s₃ (out ++ tasks) := { hlk.1 with }
  -- a discovery task if more candidates are needed, then perhaps a wait
  by_cases hc : (s₃.lookupBuf.length : Int) < need₃ ∧ s₃.lookupRunning = false
  · rw [if_pos hc]
    have hd := h₃.discover hc.2 (need₃ - s₃.lookupBuf.length)
    rw [List.append_assoc] at hd
    dsimp only
    split_ifs with hw
    · simp at hw
    · exact hd
  · rw [if_neg hc]
    dsimp only
    split_ifs with hw
    · obtain ⟨hlen, hts, -⟩ := hw
      have hout : out = [] := List.eq_nil_of_length_eq_zero hlen
      split
      · rw [← List.append_assoc]
        exact h₃.waitExpire (by simp [hout, hts]) _
      · exact h₃
    · exact h₃

end Loops

/-! ## Tasks done -/

namespace DialerInv

variable {selfId : ID} {maxDyn : Nat} {peers : FlagMap} {s : DialState} {out : List Task}

/-- A task done: a dial's node leaves `dialing`, and no other dial out is of it, since the nodes
dialed are distinct; a discovery task done was the only one, so `lookupRunning` is cleared with
none left. -/
theorem taskDone {t : Task} (h : DialerInv selfId maxDyn peers s (t :: out))
    (results : List ENode) (now : Time) :
    DialerInv selfId maxDyn peers (s.taskDone t results now) out := by
  have hwait : out.countP Task.isWait ≤ 1 :=
    le_trans (List.sublist_cons_self t out).countP_le h.wait_le
  cases t with
  | dial d =>
    have hperm : (d.dest.id :: dialIds out).Perm s.dialing.keys := h.keys_perm
    have hnotMem : d.dest.id ∉ dialIds out :=
      (List.nodup_cons.mp (hperm.nodup_iff.mpr s.dialing.keys_nodup)).1
    exact {
      self_eq := h.self_eq
      maxDyn_eq := h.maxDyn_eq
      static_ok := h.static_ok
      keys_perm := AList.perm_keys_erase hperm
      lookup_eq := fun t ht => by
        have hne : t.dest.id ≠ d.dest.id := fun he => hnotMem (he ▸ mem_dialIds ht)
        rw [DialState.taskDone, AList.lookup_erase_ne hne]
        exact h.lookup_eq t (List.mem_cons_of_mem _ ht)
      self_notMem := fun hm => h.self_notMem (AList.mem_erase.mp hm).2
      discover_eq := (List.countP_cons_of_neg (by simp [Task.isDiscover])).symm.trans h.discover_eq
      wait_le := hwait
      dyn_le := le_trans (Finset.card_le_card
        (Finset.union_subset_union_right (dynIds_erase_subset _ _))) h.dyn_le }
  | discover w =>
    have hd := h.discover_eq
    rw [List.countP_cons_of_pos (by rfl)] at hd
    split_ifs at hd with hr
    exact { h with
      keys_perm := by simpa [DialState.taskDone] using h.keys_perm
      lookup_eq := fun t ht => h.lookup_eq t (List.mem_cons_of_mem _ ht)
      discover_eq := by simp only [DialState.taskDone, Bool.false_eq_true, if_false]; omega
      wait_le := hwait }
  | waitExpire d =>
    exact { h with
      keys_perm := by simpa [DialState.taskDone] using h.keys_perm
      lookup_eq := fun t ht => h.lookup_eq t (List.mem_cons_of_mem _ ht)
      discover_eq := (List.countP_cons_of_neg (by simp [Task.isDiscover])).symm.trans h.discover_eq
      wait_le := hwait }

/-- The dialer's part does not read the peers but for the dynamic ones. -/
theorem peers_congr {peers' : FlagMap} (h : DialerInv selfId maxDyn peers s out)
    (hp : dynIds peers' ⊆ dynIds peers) : DialerInv selfId maxDyn peers' s out :=
  { h with
    dyn_le := le_trans (Finset.card_le_card (Finset.union_subset_union_left hp)) h.dyn_le }

end DialerInv

theorem DialerInv.foldl_addStatic {selfId : ID} {maxDyn : Nat} {peers : FlagMap}
    {out : List Task} : ∀ (L : List ENode) (s : DialState),
      DialerInv selfId maxDyn peers s out →
        DialerInv selfId maxDyn peers (L.foldl DialState.addStatic s) out
  | [], _, h => h
  | n :: ns, s, h => DialerInv.foldl_addStatic ns (s.addStatic n) (h.addStatic n)

/-! ## The dial history

`hist` is a heap of expiry times under `container/heap`, and stays one (`HistOrdered`). The
comment on `dialHistoryExpiration` gives its purpose, the time waited between redials of a
node: `expire(now)` pops only items that expired before `now` (`expExpire_spec`), and a node the
history holds is refused by `checkDial`, so the loops of `newTasks` add to `dialing` only nodes
it does not hold (`newTasks_keepsHist`). -/

section History

open GoHeap

/-- The key the history orders by: the expiry. -/
def expKey (o : Option ExpItem) : Int := (o.map (·.exp)).getD 0

theorem expLess_eq (l : List ExpItem) (i j : Nat) (hi : i < l.length) (hj : j < l.length) :
    expLess l i j = decide (expKey l[i]? < expKey l[j]?) := by
  rw [expLess, List.getElem?_eq_getElem hi, List.getElem?_eq_getElem hj]
  rfl

/-- `hist` read as a heap of expiry times. -/
def expModel : Model (sliceInterface expLess) (Option ExpItem) Int :=
  sliceModel expLess expKey expLess_eq

/-- The history is a heap: no item expires before its parent. -/
def HistOrdered (h : List ExpItem) : Prop := Ordered expModel h h.length

theorem histOrdered_nil : HistOrdered [] := by
  intro c _ hc
  exact absurd hc (Nat.not_lt_zero c)

/-- `add` keeps the heap, with the new item among the old ones. -/
theorem expAdd_spec {h : List ExpItem} (ho : HistOrdered h) (item : ID) (exp : Time) :
    HistOrdered (expAdd h item exp) ∧ (expAdd h item exp).Perm (⟨item, exp⟩ :: h) := by
  obtain ⟨hord, hperm⟩ := slicePush_spec ⟨item, exp⟩ ho
  refine ⟨?_, hperm⟩
  unfold HistOrdered expAdd
  rw [hperm.length_eq, List.length_cons]
  exact hord

theorem expContains_of_mem {h : List ExpItem} {x : ExpItem} (hx : x ∈ h) :
    expContains h x.item = true :=
  List.any_eq_true.mpr ⟨x, hx, beq_self_eq_true _⟩

/-- The loop of `expire` keeps the heap, and every item it pops expired before `now`: `heap.Pop`
removes the first item, the one the loop compared with `now`. By induction on the fuel. -/
theorem expireLoop_spec (now : Time) (fuel : Nat) :
    ∀ h : List ExpItem, HistOrdered h →
      HistOrdered (expireLoop now fuel h) ∧ ∀ x ∈ h, now ≤ x.exp → x ∈ expireLoop now fuel h := by
  induction fuel with
  | zero =>
    intro h ho
    exact ⟨ho, fun x hx _ => hx⟩
  | succ fuel ih =>
    intro h ho
    unfold expireLoop
    split
    · rename_i top htop
      split_ifs with hexp
      · -- the first item expired: it is popped, and the rest is a heap of the others
        have hpos : 0 < h.length := by
          rcases h with _ | _
          · simp at htop
          · simp
        obtain ⟨-, hlen, hord, x, hx, hperm⟩ := slicePop_spec hpos ho
        have hxt : x = top := Option.some.inj (hx.symm.trans htop)
        have ho' : HistOrdered (slicePop expLess h).2 := by
          unfold HistOrdered
          rw [hlen]
          exact hord
        obtain ⟨hord', hkeep⟩ := ih _ ho'
        refine ⟨hord', fun y hy hle => hkeep y ?_ hle⟩
        rcases List.mem_cons.mp (hperm.symm.subset hy) with rfl | hy'
        · exact absurd hle (not_le.mpr (hxt ▸ hexp))
        · exact hy'
      · exact ⟨ho, fun x hx _ => hx⟩
    · exact ⟨ho, fun x hx _ => hx⟩

/-- **`expire(now)` keeps the heap and every item that expires at `now` or later.** -/
theorem expExpire_spec {h : List ExpItem} (ho : HistOrdered h) (now : Time) :
    HistOrdered (expExpire h now) ∧ ∀ x ∈ h, now ≤ x.exp → x ∈ expExpire h now :=
  expireLoop_spec now h.length h ho

/-- What the loops of `newTasks` do to the history and to `dialing`: the history is untouched,
and a node joins `dialing` only if the history does not hold it. -/
def KeepsHist (s s' : DialState) : Prop :=
  s'.hist = s.hist ∧ ∀ k ∈ s'.dialing, k ∈ s.dialing ∨ expContains s.hist k = false

theorem KeepsHist.refl (s : DialState) : KeepsHist s s := ⟨rfl, fun _ hk => .inl hk⟩

theorem KeepsHist.trans {s₁ s₂ s₃ : DialState} (h₁ : KeepsHist s₁ s₂) (h₂ : KeepsHist s₂ s₃) :
    KeepsHist s₁ s₃ := by
  refine ⟨h₂.1.trans h₁.1, fun k hk => ?_⟩
  rcases h₂.2 k hk with hk' | hk'
  · exact h₁.2 k hk'
  · exact .inr (h₁.1 ▸ hk')

/-- A dial `checkDial` allows is of a node the history does not hold. -/
theorem KeepsHist.insert {s : DialState} {peers : FlagMap} {n : ENode}
    (hc : s.checkDial n peers = none) (flag : ConnFlag) :
    KeepsHist s { s with dialing := s.dialing.insert n.id flag } := by
  refine ⟨rfl, fun k hk => ?_⟩
  rcases (AList.mem_insert _).mp hk with rfl | hk'
  · exact .inr (checkDial_eq_none hc).2.2.2
  · exact .inl hk'

theorem KeepsHist.addDial {s s' : DialState} {peers : FlagMap} {flag : ConnFlag} {n : ENode}
    {t : Option Task} (h : s.addDial peers flag n = (s', t)) : KeepsHist s s' := by
  rcases addDial_cases s peers flag n with ⟨hc, h'⟩ | h'
  · rw [h, Prod.mk.injEq] at h'
    rw [h'.1]
    exact KeepsHist.insert hc flag
  · rw [h, Prod.mk.injEq] at h'
    rw [h'.1]
    exact KeepsHist.refl s

theorem staticLoop_keepsHist (peers : FlagMap) (L : List (Σ _ : ID, DialTask))
    (hL : ∀ e ∈ L, e.2.dest.id = e.1) :
    ∀ (s : DialState) (tasks : List Task),
      KeepsHist s (DialState.staticLoop peers L (s, tasks)).1 := by
  induction L with
  | nil => exact fun s _ => KeepsHist.refl s
  | cons e rest ih =>
    intro s tasks
    obtain ⟨k, ⟨flags, n⟩⟩ := e
    obtain rfl : n.id = k := hL _ List.mem_cons_self
    have ih' := ih fun e he => hL e (List.mem_cons_of_mem _ he)
    unfold DialState.staticLoop
    split
    · exact (KeepsHist.refl s).trans (ih' _ tasks)
    · exact (KeepsHist.refl s).trans (ih' _ tasks)
    · rename_i hc
      exact (KeepsHist.insert hc flags).trans (ih' _ _)
    · exact ih' s tasks

theorem lookupLoop_keepsHist (peers : FlagMap) (L : List ENode) :
    ∀ (s : DialState) (tasks : List Task) (need : Int),
      KeepsHist s (DialState.lookupLoop peers L (s, tasks, need)).1 := by
  induction L with
  | nil => exact fun s _ _ => KeepsHist.refl s
  | cons n ns ih =>
    intro s tasks need
    unfold DialState.lookupLoop
    split_ifs
    · split
      · rename_i s' t hadd
        exact (KeepsHist.addDial hadd).trans (ih s' _ _)
      · rename_i s' hadd
        exact (KeepsHist.addDial hadd).trans (ih s' _ _)
    · exact KeepsHist.refl s

theorem bootnodeDial_keepsHist (peers : FlagMap) (now : Time) (s : DialState)
    (tasks : List Task) (need : Int) :
    KeepsHist s (DialState.bootnodeDial peers now (s, tasks, need)).1 := by
  dsimp only [DialState.bootnodeDial]
  split_ifs
  · split
    · -- the rotation of the bootnodes is outside both
      rename_i b bs _
      have hr : KeepsHist s { s with bootnodes := bs ++ [b] } := KeepsHist.refl s
      split
      · rename_i s' _ hadd
        exact hr.trans (KeepsHist.addDial hadd)
      · rename_i s' hadd
        exact hr.trans (KeepsHist.addDial hadd)
    · exact KeepsHist.refl s
  · exact KeepsHist.refl s

/-- **`newTasks` expires the history, and adds to `dialing` only nodes the expired history does
not hold.** -/
theorem newTasks_keepsHist (s : DialState) (nRunning : Nat) (peers : FlagMap) (now : Time)
    (hstatic : ∀ id t, s.static.lookup id = some t → t.dest.id = id) :
    KeepsHist { s with hist := expExpire s.hist now } (s.newTasks nRunning peers now).1 := by
  unfold DialState.newTasks
  lift_lets
  intro s₁ s₂ st need bd lk src s₃ tasks need₃
  have hs₁ : s₁.hist = s.hist ∧ s₁.dialing = s.dialing ∧ s₁.static = s.static := by
    simp only [s₁]
    split <;> exact ⟨rfl, rfl, rfl⟩
  have h₂ : KeepsHist { s with hist := expExpire s.hist now } s₂ :=
    ⟨by simp only [s₂, hs₁.1], fun k hk => .inl (hs₁.2.1 ▸ hk)⟩
  have hst : KeepsHist s₂ st.1 := by
    refine staticLoop_keepsHist peers _ (fun e he => ?_) s₂ []
    have hl : s.static.lookup e.1 = some e.2 := by
      rw [← hs₁.2.2]
      exact AList.mem_lookup_iff.mpr he
    exact hstatic e.1 e.2 hl
  have hlk : KeepsHist s₂ s₃ :=
    (hst.trans (bootnodeDial_keepsHist peers now st.1 st.2 need)).trans
      (lookupLoop_keepsHist peers bd.1.lookupBuf bd.1 bd.2.1 bd.2.2)
  -- the discovery task and the wait touch neither the history nor `dialing`
  by_cases hc : (s₃.lookupBuf.length : Int) < need₃ ∧ s₃.lookupRunning = false
  · rw [if_pos hc]
    exact h₂.trans hlk
  · rw [if_neg hc]
    exact h₂.trans hlk

end History

end GoMetadium.P2p
