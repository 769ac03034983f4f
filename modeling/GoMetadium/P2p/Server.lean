import GoMetadium.P2p.Dial
import GoMetadium.Lib.Machine

/-!
# The loop of the P2P server

The loop of `Server.run` (`p2p/server.go`), which drives the dialer. At the head of every
iteration it starts queued tasks while fewer than `maxActiveDialTasks` run and asks
`dialstate.newTasks` for more (`scheduleTasks`); then it takes one event: a task done, a
connection that passed its handshakes (dialed by a running task, or inbound), a peer gone, a
static node added or removed, or a node trusted or not.

The model is the loop (`Server`, `ServerEvent`, `Server.step`) as a machine. The main result is
the invariant of every run (`ServerInv`, `runServer_inv`): the dialer's, over the running and
queued tasks, with the accounting of the peers. From it, no node is dialed twice at once and the
local node never (`dials_match_dialing`); the nodes connected through a dynamic dial or being
dialed dynamically are never more than `maxDialedConns` (`dynamic_dials_le`); and a node whose
dial is done is not dialed again before `dialHistoryExpiration` has passed
(`no_redial_before_expiry`).
-/

set_option autoImplicit false

namespace GoMetadium.P2p

/-! ## The server loop -/

/-- The parts of `Config` the loop reads. -/
structure ServerConfig where
  maxPeers : Nat
  dialRatio : Nat
  noDiscovery : Bool
  noDial : Bool
  self : ID
  /-- `len(srv.Protocols) > 0`. -/
  protocols : Bool

/-- `maxDialedConns`. -/
def ServerConfig.maxDialedConns (c : ServerConfig) : Nat :=
  if c.noDiscovery || c.noDial then 0
  else c.maxPeers / (if c.dialRatio = 0 then defaultDialRatio else c.dialRatio)

/-- `maxInboundConns`. -/
def ServerConfig.maxInboundConns (c : ServerConfig) : Int := c.maxPeers - c.maxDialedConns

/-- The reasons `postHandshakeChecks` and `addPeerChecks` give. -/
inductive DiscReason where
  | tooManyPeers
  | alreadyConnected
  | self
  | uselessPeer
  deriving DecidableEq

/-- `postHandshakeChecks`. -/
def postHandshakeChecks (cfg : ServerConfig) (peers : FlagMap) (inboundCount : Int)
    (flags : ConnFlag) (id : ID) : Option DiscReason :=
  if !connIs flags (trustedConn ||| staticDialedConn) && cfg.maxPeers ≤ peers.entries.length then
    some .tooManyPeers
  else if !connIs flags trustedConn && connIs flags inboundConn &&
      decide (cfg.maxInboundConns ≤ inboundCount) then some .tooManyPeers
  else if id ∈ peers then some .alreadyConnected
  else if id = cfg.self then some .self
  else none

/-- `addPeerChecks`: `caps` is whether a protocol of the peer matches one of the server's. -/
def addPeerChecks (cfg : ServerConfig) (peers : FlagMap) (inboundCount : Int) (flags : ConnFlag)
    (id : ID) (caps : Bool) : Option DiscReason :=
  if cfg.protocols && !caps then some .uselessPeer
  else postHandshakeChecks cfg peers inboundCount flags id

/-- The state of `Server.run`. A peer is kept by its connection's flags. -/
structure Server where
  dialstate : DialState
  peers : FlagMap
  inboundCount : Int
  runningTasks : List Task
  queuedTasks : List Task

/-- `startTasks(ts)`: start tasks while fewer than `maxActiveDialTasks` run; gives the running
tasks and the rest. -/
def startTasks (running : List Task) : List Task → List Task × List Task
  | [] => (running, [])
  | t :: ts =>
    if running.length < maxActiveDialTasks then startTasks (running ++ [t]) ts
    else (running, t :: ts)

namespace Server

/-- `scheduleTasks()` at time `now`. -/
def scheduleTasks (srv : Server) (now : Time) : Server :=
  let q := startTasks srv.runningTasks srv.queuedTasks
  let srv := { srv with runningTasks := q.1, queuedTasks := q.2 }
  if srv.runningTasks.length < maxActiveDialTasks then
    let nt := srv.dialstate.newTasks (srv.runningTasks.length + srv.queuedTasks.length)
      srv.peers now
    let r := startTasks srv.runningTasks nt.2
    { srv with dialstate := nt.1, runningTasks := r.1, queuedTasks := srv.queuedTasks ++ r.2 }
  else srv

/-- The `checkpointAddPeer` case: a connection with `flags` from node `id` that passed its
handshakes becomes a peer if `addPeerChecks` allows it. -/
def addPeer (cfg : ServerConfig) (srv : Server) (id : ID) (flags : ConnFlag) (caps : Bool) :
    Server :=
  match addPeerChecks cfg srv.peers srv.inboundCount flags id caps with
  | some _ => srv
  | none =>
    { srv with peers := srv.peers.insert id flags,
               inboundCount := if connIs flags inboundConn then srv.inboundCount + 1
                 else srv.inboundCount }

end Server

/-- The events of the loop's `select`. A connection's `trusted` is whether its node was trusted
at its encryption handshake, when `checkpointPostHandshake` set `trustedConn`. -/
inductive ServerEvent where
  | tick
  | addStatic (n : ENode)
  | removeStatic (n : ENode)
  /-- `addtrusted` or `removetrusted` of a node, as far as a connected peer sees it. -/
  | setTrusted (id : ID) (val : Bool)
  /-- The running task `i` finished at `now`; a discovery task found `results`. -/
  | taskDone (i : Nat) (results : List ENode) (now : Time)
  /-- The connection of the running dial task `i` reaches `checkpointAddPeer`. -/
  | dialedConn (i : Nat) (trusted caps : Bool)
  /-- An inbound connection from `id` reaches `checkpointAddPeer`. -/
  | inboundConn (id : ID) (trusted caps : Bool)
  /-- A peer disconnected. -/
  | delPeer (id : ID)

namespace Server

/-- One case of the `select`. `removestatic` also disconnects the peer, which comes back as a
`delPeer`. -/
def handle (cfg : ServerConfig) (srv : Server) : ServerEvent → Server
  | .tick => srv
  | .addStatic n => { srv with dialstate := srv.dialstate.addStatic n }
  | .removeStatic n => { srv with dialstate := srv.dialstate.removeStatic n }
  | .setTrusted id val =>
    match srv.peers.lookup id with
    | some f => { srv with peers := srv.peers.insert id (connSet f trustedConn val) }
    | none => srv
  | .taskDone i results now =>
    match srv.runningTasks[i]? with
    | some t =>
      { srv with dialstate := srv.dialstate.taskDone t results now,
                 runningTasks := srv.runningTasks.eraseIdx i }
    | none => srv
  | .dialedConn i trusted caps =>
    match srv.runningTasks[i]? with
    | some (.dial t) =>
      srv.addPeer cfg t.dest.id (if trusted then t.flags ||| trustedConn else t.flags) caps
    | _ => srv
  | .inboundConn id trusted caps =>
    srv.addPeer cfg id (if trusted then inboundConn ||| trustedConn else inboundConn) caps
  | .delPeer id =>
    match srv.peers.lookup id with
    | some f =>
      { srv with peers := srv.peers.erase id,
                 inboundCount := if connIs f inboundConn then srv.inboundCount - 1
                   else srv.inboundCount }
    | none => srv

/-- One iteration of the loop: `scheduleTasks` at `now`, then one case of the `select`. -/
def step (cfg : ServerConfig) (srv : Server) (ev : Time × ServerEvent) : Server :=
  (srv.scheduleTasks ev.1).handle cfg ev.2

/-- The loop's start: `newDialState` with the server's ID and `maxDialedConns`, no peer and no
task. -/
def init (cfg : ServerConfig) (netrestrict : Option (List IPNet))
    (bootnodes staticNodes : List ENode) : Server :=
  ⟨newDialState cfg.self cfg.maxDialedConns netrestrict bootnodes staticNodes, ∅, 0, [], []⟩

end Server

/-- The machine of the loop. -/
def serverMachine (cfg : ServerConfig) : Machine Server (Time × ServerEvent) Unit :=
  ⟨fun srv ev => ((), srv.step cfg ev)⟩

/-- The loop after the events. -/
def runServer (cfg : ServerConfig) (netrestrict : Option (List IPNet))
    (bootnodes staticNodes : List ENode) (events : List (Time × ServerEvent)) : Server :=
  ((serverMachine cfg).run (Server.init cfg netrestrict bootnodes staticNodes) events).2

/-! ## The peers' accounting -/

/-- The number of peers whose connection is inbound. -/
def inboundPeers (m : FlagMap) : Int := m.sumBy fun _ f => if connIs f inboundConn then 1 else 0

theorem inboundPeers_insert_of_notMem {m : FlagMap} {k : ID} (hk : k ∉ m) (f : ConnFlag) :
    inboundPeers (m.insert k f) = (if connIs f inboundConn then 1 else 0) + inboundPeers m :=
  AList.sumBy_insert_of_notMem hk f

theorem inboundPeers_erase {m : FlagMap} {k : ID} {f : ConnFlag} (hk : m.lookup k = some f) :
    inboundPeers (m.erase k) = inboundPeers m - if connIs f inboundConn then 1 else 0 :=
  AList.sumBy_erase hk

theorem addPeerChecks_eq_none {cfg : ServerConfig} {peers : FlagMap} {inboundCount : Int}
    {flags : ConnFlag} {id : ID} {caps : Bool}
    (h : addPeerChecks cfg peers inboundCount flags id caps = none) :
    id ∉ peers ∧ id ≠ cfg.self := by
  unfold addPeerChecks postHandshakeChecks at h
  split_ifs at h with h₁ h₂ h₃ h₄ h₅
  exact ⟨h₄, h₅⟩

/-! ## The server loop's invariant -/

theorem startTasks_append : ∀ (running ts : List Task),
    (startTasks running ts).1 ++ (startTasks running ts).2 = running ++ ts
  | _, [] => rfl
  | running, t :: ts => by
    unfold startTasks
    split_ifs
    · rw [startTasks_append, List.append_assoc, List.singleton_append]
    · rfl

theorem startTasks_length_le : ∀ (running ts : List Task),
    running.length ≤ maxActiveDialTasks →
      (startTasks running ts).1.length ≤ maxActiveDialTasks
  | _, [], h => h
  | running, t :: ts, h => by
    unfold startTasks
    split_ifs with hlt
    · exact startTasks_length_le _ ts (by rw [List.length_append, List.length_singleton]; omega)
    · exact h

/-- **The invariant of the loop**: the dialer's, over the running and queued tasks and the peers;
no more than `maxActiveDialTasks` tasks run; the local node is no peer; and `inboundCount` counts
the inbound peers. -/
structure ServerInv (cfg : ServerConfig) (srv : Server) : Prop where
  dialer : DialerInv cfg.self cfg.maxDialedConns srv.peers srv.dialstate
    (srv.runningTasks ++ srv.queuedTasks)
  running_le : srv.runningTasks.length ≤ maxActiveDialTasks
  self_notMem : cfg.self ∉ srv.peers
  inbound_eq : srv.inboundCount = inboundPeers srv.peers

namespace ServerInv

variable {cfg : ServerConfig} {srv : Server}

/-- `scheduleTasks` keeps the invariant: starting tasks moves them from the queue to the
running ones, and the new tasks join the two. -/
theorem scheduleTasks (h : ServerInv cfg srv) (now : Time) :
    ServerInv cfg (srv.scheduleTasks now) := by
  unfold Server.scheduleTasks
  lift_lets
  intro q srv₁
  have h₁ : ServerInv cfg srv₁ := by
    refine ⟨?_, startTasks_length_le _ _ h.running_le, h.self_notMem, h.inbound_eq⟩
    show DialerInv cfg.self cfg.maxDialedConns srv.peers srv.dialstate (q.1 ++ q.2)
    rw [startTasks_append]
    exact h.dialer
  split_ifs with hlt
  · lift_lets
    intro nt r
    have hnt := newTasks_inv h₁.dialer now
    rw [List.length_append] at hnt
    -- the new tasks started or queued: the same tasks out, in another order
    have hperm : (srv₁.runningTasks ++ srv₁.queuedTasks ++ nt.2).Perm
        (r.1 ++ (srv₁.queuedTasks ++ r.2)) := by
      calc (srv₁.runningTasks ++ srv₁.queuedTasks ++ nt.2).Perm
            (srv₁.runningTasks ++ (nt.2 ++ srv₁.queuedTasks)) := by
            rw [List.append_assoc]
            exact List.Perm.append_left _ List.perm_append_comm
        _ = r.1 ++ r.2 ++ srv₁.queuedTasks := by
            rw [← List.append_assoc, startTasks_append]
        (r.1 ++ r.2 ++ srv₁.queuedTasks).Perm (r.1 ++ (srv₁.queuedTasks ++ r.2)) := by
            rw [List.append_assoc]
            exact List.Perm.append_left _ List.perm_append_comm
    exact ⟨hnt.perm hperm, startTasks_length_le _ _ (le_of_lt hlt), h₁.self_notMem,
      h₁.inbound_eq⟩
  · exact h₁

/-- A new peer: its ID was no peer and is not the local node's, and a peer dialed dynamically is
a node already counted among the dynamic dials. -/
theorem addPeer (h : ServerInv cfg srv) {id : ID} {flags : ConnFlag} (caps : Bool)
    (hdyn : connIs flags dynDialedConn = true → id ∈ dynIds srv.dialstate.dialing) :
    ServerInv cfg (srv.addPeer cfg id flags caps) := by
  unfold Server.addPeer
  split
  · exact h
  · rename_i hc
    obtain ⟨hfresh, hself⟩ := addPeerChecks_eq_none hc
    have hunion : dynIds (srv.peers.insert id flags) ∪ dynIds srv.dialstate.dialing =
        dynIds srv.peers ∪ dynIds srv.dialstate.dialing := by
      rw [dynIds_insert_of_notMem hfresh]
      split_ifs with hf
      · rw [Finset.insert_union, Finset.insert_eq_of_mem (Finset.mem_union_right _ (hdyn hf))]
      · rfl
    refine ⟨{ h.dialer with dyn_le := hunion ▸ h.dialer.dyn_le }, h.running_le, ?_, ?_⟩
    · rw [AList.mem_insert]
      rintro (he | he)
      · exact hself he.symm
      · exact h.self_notMem he
    · dsimp only
      rw [inboundPeers_insert_of_notMem hfresh, ← h.inbound_eq]
      split_ifs <;> omega

/-- **Every case of the `select` keeps the invariant.** -/
theorem handle (h : ServerInv cfg srv) (ev : ServerEvent) : ServerInv cfg (srv.handle cfg ev) := by
  cases ev with
  | tick => exact h
  | addStatic n => exact { h with dialer := h.dialer.addStatic n }
  | removeStatic n => exact { h with dialer := h.dialer.eraseStatic n.id }
  | setTrusted id val =>
    dsimp only [Server.handle]
    split
    · rename_i f hf
      -- trust changes neither whether a peer was dialed dynamically nor whether it is inbound
      have hdyn : dynIds (srv.peers.insert id (connSet f trustedConn val)) = dynIds srv.peers :=
        AList.keysWhere_insert_of_lookup hf _
          (connIs_connSet f trustedConn dynDialedConn val (by decide))
      have hin : inboundPeers (srv.peers.insert id (connSet f trustedConn val)) =
          inboundPeers srv.peers := by
        unfold inboundPeers
        rw [AList.sumBy_update hf, connIs_connSet f trustedConn inboundConn val (by decide)]
        ring
      refine ⟨h.dialer.peers_congr hdyn.subset, h.running_le, ?_, hin ▸ h.inbound_eq⟩
      rw [AList.mem_insert]
      rintro (he | he)
      · exact h.self_notMem (he ▸ AList.lookup_isSome.mp (Option.isSome_of_eq_some hf))
      · exact h.self_notMem he
    · exact h
  | taskDone i results now =>
    dsimp only [Server.handle]
    split
    · rename_i t ht
      obtain ⟨hi, hti⟩ := List.getElem?_eq_some_iff.mp ht
      have hperm : (srv.runningTasks ++ srv.queuedTasks).Perm
          (t :: (srv.runningTasks.eraseIdx i ++ srv.queuedTasks)) := by
        have := (List.getElem_cons_eraseIdx_perm hi).symm.append_right srv.queuedTasks
        rwa [hti] at this
      exact ⟨(h.dialer.perm hperm).taskDone results now,
        le_trans (List.length_eraseIdx_le _ _) h.running_le, h.self_notMem, h.inbound_eq⟩
    · exact h
  | dialedConn i trusted caps =>
    dsimp only [Server.handle]
    split
    · rename_i t ht
      apply h.addPeer caps
      intro hf
      -- the connection has its task's flags, and `dialing` holds them for its node
      have hflags : connIs (if trusted then t.flags ||| trustedConn else t.flags) dynDialedConn =
          connIs t.flags dynDialedConn := by
        split
        · exact connIs_connSet t.flags trustedConn dynDialedConn true (by decide)
        · rfl
      have hmem : Task.dial t ∈ srv.runningTasks ++ srv.queuedTasks :=
        List.mem_append_left _ (List.mem_of_getElem? ht)
      exact AList.mem_keysWhere.mpr ⟨t.flags, h.dialer.lookup_eq t hmem, hflags ▸ hf⟩
    · exact h
  | inboundConn id trusted caps =>
    apply h.addPeer caps
    intro hf
    split at hf <;> exact absurd hf (by decide)
  | delPeer id =>
    dsimp only [Server.handle]
    split
    · rename_i f hf
      refine ⟨h.dialer.peers_congr (dynIds_erase_subset _ _), h.running_le,
        fun hm => h.self_notMem (AList.mem_erase.mp hm).2, ?_⟩
      dsimp only
      rw [inboundPeers_erase hf, ← h.inbound_eq]
      split_ifs <;> omega
    · exact h

end ServerInv

/-- The loop starts in the invariant. -/
theorem ServerInv.init (cfg : ServerConfig) (netrestrict : Option (List IPNet))
    (bootnodes staticNodes : List ENode) :
    ServerInv cfg (Server.init cfg netrestrict bootnodes staticNodes) := by
  have h₀ : DialerInv cfg.self cfg.maxDialedConns ∅
      ⟨cfg.maxDialedConns, netrestrict, cfg.self, bootnodes, none, false, ∅, [], ∅, []⟩
      [] :=
    { self_eq := rfl
      maxDyn_eq := rfl
      static_ok := fun _ _ ht => by simp at ht
      keys_perm := List.Perm.nil
      lookup_eq := fun _ ht => absurd ht List.not_mem_nil
      self_notMem := AList.notMem_empty _
      discover_eq := rfl
      wait_le := Nat.zero_le _
      dyn_le := by simp [dynIds, AList.keysWhere_empty] }
  exact ⟨DialerInv.foldl_addStatic staticNodes _ h₀, Nat.zero_le _, AList.notMem_empty _, rfl⟩

/-- **The invariant holds after every run of the loop.** -/
theorem runServer_inv (cfg : ServerConfig) (netrestrict : Option (List IPNet))
    (bootnodes staticNodes : List ENode) (events : List (Time × ServerEvent)) :
    ServerInv cfg (runServer cfg netrestrict bootnodes staticNodes events) :=
  (serverMachine cfg).run_inv (fun _ ev h => (h.scheduleTasks ev.1).handle ev.2) _ events
    (ServerInv.init cfg netrestrict bootnodes staticNodes)

/-! ## The loop and the dial history -/

section History

/-- `scheduleTasks` leaves the dialer as it was, or runs `newTasks`. -/
theorem ServerInv.scheduleTasks_keepsHist {cfg : ServerConfig} {srv : Server}
    (h : ServerInv cfg srv) (now : Time) :
    (srv.scheduleTasks now).dialstate = srv.dialstate ∨
      KeepsHist { srv.dialstate with hist := expExpire srv.dialstate.hist now }
        (srv.scheduleTasks now).dialstate := by
  unfold Server.scheduleTasks
  lift_lets
  intro q srv₁
  split_ifs
  · exact .inr (newTasks_keepsHist srv₁.dialstate
      (srv₁.runningTasks.length + srv₁.queuedTasks.length) srv₁.peers now
      fun id t ht => (h.dialer.static_ok id t ht).1)
  · exact .inl rfl

theorem Server.addPeer_dialstate (cfg : ServerConfig) (srv : Server) (id : ID)
    (flags : ConnFlag) (caps : Bool) : (srv.addPeer cfg id flags caps).dialstate = srv.dialstate := by
  unfold Server.addPeer
  split <;> rfl

/-- What an event does to the history and to `dialing`: a dial done adds an item to the history
and takes its node out of `dialing`; nothing else touches either. -/
theorem Server.handle_hist (cfg : ServerConfig) (srv : Server) (ev : ServerEvent) :
    ((srv.handle cfg ev).dialstate.hist = srv.dialstate.hist ∨
      ∃ id exp, (srv.handle cfg ev).dialstate.hist = expAdd srv.dialstate.hist id exp) ∧
    ∀ k ∈ (srv.handle cfg ev).dialstate.dialing, k ∈ srv.dialstate.dialing := by
  cases ev with
  | taskDone i results now =>
    dsimp only [Server.handle]
    split
    · rename_i t _
      cases t with
      | dial d => exact ⟨.inr ⟨_, _, rfl⟩, fun k hk => (AList.mem_erase.mp hk).2⟩
      | discover _ => exact ⟨.inl rfl, fun k hk => hk⟩
      | waitExpire _ => exact ⟨.inl rfl, fun k hk => hk⟩
    · exact ⟨.inl rfl, fun k hk => hk⟩
  | setTrusted id val =>
    dsimp only [Server.handle]
    split <;> exact ⟨.inl rfl, fun k hk => hk⟩
  | dialedConn i trusted caps =>
    dsimp only [Server.handle]
    split
    · rw [Server.addPeer_dialstate]
      exact ⟨.inl rfl, fun k hk => hk⟩
    · exact ⟨.inl rfl, fun k hk => hk⟩
  | inboundConn id trusted caps =>
    dsimp only [Server.handle]
    rw [Server.addPeer_dialstate]
    exact ⟨.inl rfl, fun k hk => hk⟩
  | delPeer id =>
    dsimp only [Server.handle]
    split <;> exact ⟨.inl rfl, fun k hk => hk⟩
  | tick | addStatic | removeStatic => exact ⟨.inl rfl, fun k hk => hk⟩

theorem ServerInv.histOrdered_scheduleTasks {cfg : ServerConfig} {srv : Server}
    (h : ServerInv cfg srv) (ho : HistOrdered srv.dialstate.hist) (now : Time) :
    HistOrdered (srv.scheduleTasks now).dialstate.hist := by
  rcases h.scheduleTasks_keepsHist now with he | hk
  · rw [he]
    exact ho
  · rw [hk.1]
    exact (expExpire_spec ho now).1

/-- The history stays a heap: `expire` and `add` keep it, and nothing else touches it. -/
theorem ServerInv.histOrdered_step {cfg : ServerConfig} {srv : Server} (h : ServerInv cfg srv)
    (ho : HistOrdered srv.dialstate.hist) (ev : Time × ServerEvent) :
    HistOrdered (srv.step cfg ev).dialstate.hist := by
  have ho₁ := h.histOrdered_scheduleTasks ho ev.1
  show HistOrdered ((srv.scheduleTasks ev.1).handle cfg ev.2).dialstate.hist
  rcases (Server.handle_hist cfg (srv.scheduleTasks ev.1) ev.2).1 with he | ⟨id, exp, he⟩
  · rw [he]
    exact ho₁
  · rw [he]
    exact (expAdd_spec ho₁ id exp).1

theorem foldl_addStatic_hist : ∀ (L : List ENode) (s : DialState),
    (L.foldl DialState.addStatic s).hist = s.hist
  | [], _ => rfl
  | n :: ns, s => foldl_addStatic_hist ns (s.addStatic n)

/-- **In every run the history is a heap.** -/
theorem runServer_histOrdered (cfg : ServerConfig) (netrestrict : Option (List IPNet))
    (bootnodes staticNodes : List ENode) (events : List (Time × ServerEvent)) :
    ServerInv cfg (runServer cfg netrestrict bootnodes staticNodes events) ∧
      HistOrdered (runServer cfg netrestrict bootnodes staticNodes events).dialstate.hist := by
  have h₀ : HistOrdered (Server.init cfg netrestrict bootnodes staticNodes).dialstate.hist := by
    show HistOrdered (staticNodes.foldl DialState.addStatic _).hist
    rw [foldl_addStatic_hist]
    exact histOrdered_nil
  have hpres : (serverMachine cfg).Preserves
      fun srv => ServerInv cfg srv ∧ HistOrdered srv.dialstate.hist :=
    fun _ ev h => ⟨(h.1.scheduleTasks ev.1).handle ev.2, h.1.histOrdered_step h.2 ev⟩
  exact (serverMachine cfg).run_inv hpres _ events
    ⟨ServerInv.init cfg netrestrict bootnodes staticNodes, h₀⟩

/-- The loop's invariant, with the history a heap that holds `x`, and `x`'s node not being
dialed. -/
structure Blocks (cfg : ServerConfig) (x : ExpItem) (srv : Server) : Prop where
  inv : ServerInv cfg srv
  ordered : HistOrdered srv.dialstate.hist
  mem : x ∈ srv.dialstate.hist
  notMem : x.item ∉ srv.dialstate.dialing

/-- A step before `x` expires keeps it blocking its node: `expire` keeps `x`, `newTasks` dials
no node the history holds, and an event only adds to the history and takes from `dialing`. -/
theorem Blocks.step {cfg : ServerConfig} {x : ExpItem} {srv : Server} (h : Blocks cfg x srv)
    (ev : Time × ServerEvent) (hle : ev.1 ≤ x.exp) : Blocks cfg x (srv.step cfg ev) := by
  have h₁ : x ∈ (srv.scheduleTasks ev.1).dialstate.hist ∧
      x.item ∉ (srv.scheduleTasks ev.1).dialstate.dialing := by
    rcases h.inv.scheduleTasks_keepsHist ev.1 with he | hk
    · rw [he]
      exact ⟨h.mem, h.notMem⟩
    · have hx : x ∈ expExpire srv.dialstate.hist ev.1 :=
        (expExpire_spec h.ordered ev.1).2 x h.mem hle
      refine ⟨by rw [hk.1]; exact hx, fun hd => ?_⟩
      rcases hk.2 x.item hd with hd' | hc
      · exact h.notMem hd'
      · exact Bool.eq_false_iff.mp hc (expContains_of_mem hx)
  have ho₁ := h.inv.histOrdered_scheduleTasks h.ordered ev.1
  obtain ⟨hhist, hdial⟩ := Server.handle_hist cfg (srv.scheduleTasks ev.1) ev.2
  refine ⟨(h.inv.scheduleTasks ev.1).handle ev.2, h.inv.histOrdered_step h.ordered ev, ?_,
    fun hd => h₁.2 (hdial _ hd)⟩
  show x ∈ ((srv.scheduleTasks ev.1).handle cfg ev.2).dialstate.hist
  rcases hhist with he | ⟨id, exp, he⟩
  · rw [he]
    exact h₁.1
  · rw [he]
    exact (expAdd_spec ho₁ id exp).2.symm.subset (List.mem_cons_of_mem _ h₁.1)

end History

/-! ## What every run guarantees -/

section Guarantees

variable (cfg : ServerConfig) (netrestrict : Option (List IPNet))
  (bootnodes staticNodes : List ENode) (events : List (Time × ServerEvent))

/-- **No node is dialed twice at once, nor the local node.** In every run of the loop, the dial
tasks running or queued are of pairwise distinct nodes, exactly the nodes in `dialing`, each
dialed with the flags `dialing` records for it, and none of the local node. -/
theorem dials_match_dialing :
    (dialIds ((runServer cfg netrestrict bootnodes staticNodes events).runningTasks ++
        (runServer cfg netrestrict bootnodes staticNodes events).queuedTasks)).Nodup ∧
    (∀ id, id ∈ dialIds
        ((runServer cfg netrestrict bootnodes staticNodes events).runningTasks ++
          (runServer cfg netrestrict bootnodes staticNodes events).queuedTasks) ↔
      id ∈ (runServer cfg netrestrict bootnodes staticNodes events).dialstate.dialing) ∧
    (∀ t, Task.dial t ∈ (runServer cfg netrestrict bootnodes staticNodes events).runningTasks ++
        (runServer cfg netrestrict bootnodes staticNodes events).queuedTasks →
      (runServer cfg netrestrict bootnodes staticNodes events).dialstate.dialing.lookup t.dest.id =
        some t.flags) ∧
    cfg.self ∉ dialIds ((runServer cfg netrestrict bootnodes staticNodes events).runningTasks ++
        (runServer cfg netrestrict bootnodes staticNodes events).queuedTasks) := by
  have h := (runServer_inv cfg netrestrict bootnodes staticNodes events).dialer
  have hmem : ∀ id, id ∈ dialIds
        ((runServer cfg netrestrict bootnodes staticNodes events).runningTasks ++
          (runServer cfg netrestrict bootnodes staticNodes events).queuedTasks) ↔
      id ∈ (runServer cfg netrestrict bootnodes staticNodes events).dialstate.dialing :=
    fun id => h.keys_perm.mem_iff.trans AList.mem_keys.symm
  refine ⟨h.keys_perm.nodup_iff.mpr (AList.keys_nodup _), hmem, h.lookup_eq, ?_⟩
  intro hs
  exact h.self_notMem ((hmem cfg.self).mp hs)

/-- **Dynamic connections stay within `maxDialedConns`.** In every run of the loop, the peers
connected through a dynamic dial and the nodes being dialed dynamically are together at most
`maxDialedConns`, although `newTasks` counts a dialed node twice once it has connected and
its dial is not yet done. -/
theorem dynamic_dials_le :
    (dynIds (runServer cfg netrestrict bootnodes staticNodes events).peers ∪
      dynIds (runServer cfg netrestrict bootnodes staticNodes events).dialstate.dialing).card ≤
      cfg.maxDialedConns :=
  (runServer_inv cfg netrestrict bootnodes staticNodes events).dialer.dyn_le

/-- **No redial within `dialHistoryExpiration`.** When a dial task of a node is done at `now`,
no dial of that node is running or queued for as long as the loop's clock has not passed `now`
plus `dialHistoryExpiration`, whatever events come between: the history holds the node until
then, and `checkDial` refuses the nodes it holds. -/
theorem no_redial_before_expiry (pre post : List (Time × ServerEvent)) (t now : Time) (i : Nat)
    (results : List ENode) (d : DialTask)
    (hd : ((runServer cfg netrestrict bootnodes staticNodes pre).scheduleTasks t).runningTasks[i]? =
      some (.dial d))
    (hpost : ∀ e ∈ post, e.1 ≤ now + dialHistoryExpiration) :
    d.dest.id ∉ dialIds
      ((runServer cfg netrestrict bootnodes staticNodes
          (pre ++ (t, .taskDone i results now) :: post)).runningTasks ++
        (runServer cfg netrestrict bootnodes staticNodes
          (pre ++ (t, .taskDone i results now) :: post)).queuedTasks) := by
  obtain ⟨h₀, ho₀⟩ := runServer_histOrdered cfg netrestrict bootnodes staticNodes pre
  set srv₁ := (runServer cfg netrestrict bootnodes staticNodes pre).scheduleTasks t
  -- the dial done puts its node in the history and takes it out of `dialing`
  have hb : Blocks cfg ⟨d.dest.id, now + dialHistoryExpiration⟩
      (srv₁.handle cfg (.taskDone i results now)) := by
    have ho₁ := h₀.histOrdered_scheduleTasks ho₀ t
    have hinv := (h₀.scheduleTasks t).handle (.taskDone i results now)
    have hho := (expAdd_spec ho₁ d.dest.id (now + dialHistoryExpiration))
    dsimp only [Server.handle] at hinv ⊢
    rw [hd] at hinv ⊢
    exact ⟨hinv, hho.1, hho.2.symm.subset List.mem_cons_self, fun hm => (AList.mem_erase.mp hm).1 rfl⟩
  -- and keeps it out until the deadline
  have hrun : Blocks cfg ⟨d.dest.id, now + dialHistoryExpiration⟩
      (runServer cfg netrestrict bootnodes staticNodes
        (pre ++ (t, .taskDone i results now) :: post)) := by
    unfold runServer
    rw [Machine.run_append]
    exact (serverMachine cfg).run_inv_of_forall (fun _ ev hev h => h.step ev hev) _ post hpost hb
  intro hm
  exact hrun.notMem (AList.mem_keys.mpr (hrun.inv.dialer.keys_perm.subset hm))

theorem no_redial_before_expiry_static :
    let cfg : ServerConfig := ⟨10, 0, false, false, Vector.replicate 32 0, false⟩
    let n : ENode := ⟨Vector.replicate 32 1, [8, 8, 8, 8]⟩
    let srv := runServer cfg none [] [n] [(0, .taskDone 0 [] 0), (1, .tick)]
    ((runServer cfg none [] [n] []).scheduleTasks 0).runningTasks[0]? =
        some (.dial ⟨staticDialedConn, n⟩) ∧
      n.id ∉ dialIds (srv.runningTasks ++ srv.queuedTasks) := by
  intro cfg n srv
  have hd : ((runServer cfg none [] [n] []).scheduleTasks 0).runningTasks[0]? =
      some (.dial ⟨staticDialedConn, n⟩) := by
    decide +kernel
  exact ⟨hd, no_redial_before_expiry cfg none [] [n] [] [(1, .tick)] 0 0 0 [] _ hd (by decide)⟩

end Guarantees

end GoMetadium.P2p
