import GoMetadium.P2p.Closest

/-!
# A lookup: the search for the nodes nearest to a target

`p2p/discover/lookup.go`. A lookup keeps the `bucketSize` nodes nearest to its target that it
has heard of (`result`, a `nodesByDistance`), the IDs it has asked (`asked`, the local node's
among them from the start) and those it has seen (`seen`). Its first query is answered by the
local table (`closest`); after that `startQueries` starts a `query` goroutine for every entry of
the result not asked yet, while fewer than `alpha` queries are out. Each goroutine asks its node
over the network, records the outcome in the node database, adds the nodes it was given to the
table (`addSeenNode`) and sends them on `replyCh`, a channel of capacity `alpha`. `advance`
takes the replies one at a time, pushes the nodes it has not seen into the result and hands
them to its caller, which for `lookupIterator` serves them one by one. A cancelled lookup takes
the replies still due before it stops.

The model is the whole protocol: the lookup's own goroutine (`LookupPc`), the query goroutines
still out (`inflight`), the replies on the channel, the table with every other goroutine's calls
on it, and the failure counters of the database. A run is any interleaving of another table
call, one pass of the lookup goroutine through `startQueries`, the answer of a queried node (any
list of nodes, or the shutdown error), a reply received, and the cancellation (`LookupEvent`,
`LookupWorld.step`). Two ghost histories record what the code hands out: the nodes a query was
started for (`launched`) and the nodes `advance` handed to its caller (`yielded`).

The invariant of every run (`LookupInv`, `runLookup_inv`): `queries` counts exactly the query
goroutines still out and the replies not yet received, and never exceeds `alpha`, so no
goroutine blocks on its send and no reply is lost; whenever the lookup waits, a reply is due; no
node is asked twice, and the local node never; no node is handed out twice; the result is always
the `bucketSize` nodes nearest to the target of all those handed out (`nearest`); and when the
lookup ends without being cancelled nothing is out and every node of its result was asked.
-/

set_option autoImplicit false

namespace GoMetadium.P2p

/-! ## The model -/

/-- `alpha`, the Kademlia concurrency factor. -/
def alpha : Nat := 3

/-- `maxFindnodeFailures`: nodes exceeding this limit are dropped. -/
def maxFindnodeFailures : Nat := 5

/-- The node database's `findnode` failure counters, by ID and IP (`FindFails`,
`UpdateFindFails`). -/
abbrev NodeDB := ID × IP → Nat

/-- `lookup`. The maps `asked` and `seen` are their lists of keys; `queryfunc == nil`, which
`shutdown` sets, is `stopped`. The table, the channels and the query function are the world's. -/
structure Lookup where
  asked : List ID
  seen : List ID
  result : NodesByDistance
  replyBuffer : List Node
  queries : Int
  stopped : Bool

/-- `newLookup`: nothing seen, only the local node asked, no query made. -/
def newLookup (tab : Table) (target : ID) : Lookup where
  asked := [tab.selfId]
  seen := []
  result := ⟨[], target⟩
  replyBuffer := []
  queries := -1
  stopped := false

namespace Lookup

/-- The loop of `startQueries` over the entries of the result: every entry not asked yet is
asked while fewer than `alpha` queries are out. Gives the lookup and the nodes a `query`
goroutine was started for. -/
def startQueriesLoop : List Node → Lookup → Lookup × List Node
  | [], it => (it, [])
  | n :: ns, it =>
    if it.queries < alpha then
      if n.id ∈ it.asked then startQueriesLoop ns it
      else
        let r := startQueriesLoop ns
          { it with asked := it.asked ++ [n.id], queries := it.queries + 1 }
        (r.1, n :: r.2)
    else (it, [])

/-- What one call of `startQueries` did. -/
structure Started where
  lookup : Lookup
  /-- Its result: the lookup goes on. -/
  more : Bool
  /-- What it put on `replyCh` itself: the local table's answer to the first query. -/
  sent : List (List Node)
  /-- The nodes it started a `query` goroutine for. -/
  queried : List Node

/-- `startQueries`. The pause of `slowdown` when the local table has nothing changes no
state. -/
def startQueries (it : Lookup) (tab : Table) : Started :=
  if it.stopped then ⟨it, false, [], []⟩
  else if it.queries = -1 then
    ⟨{ it with queries := 1 }, true,
      [(closest tab it.result.target bucketSize false).entries], []⟩
  else
    let r := startQueriesLoop it.result.entries it
    ⟨r.1, decide (0 < r.1.queries), [], r.2⟩

/-- One node of a reply in `advance`: a node not seen before is marked seen, pushed into the
result and kept in `replyBuffer`. The check `n != nil` always holds: a query goroutine hands
every node of its answer to `addSeenNode` before sending it, and the table's answer has no nil. -/
def receiveNode (it : Lookup) (n : Node) : Lookup :=
  if n.id ∈ it.seen then it
  else
    { it with seen := it.seen ++ [n.id], result := it.result.push n bucketSize,
              replyBuffer := it.replyBuffer ++ [n] }

/-- `advance` on a reply `nodes` taken from `replyCh`. Whether it then returns, when
`replyBuffer` is not empty, or goes on to `startQueries` does not change the state: its caller
calls it again. -/
def receive (it : Lookup) (nodes : List Node) : Lookup :=
  let it := nodes.foldl receiveNode { it with replyBuffer := [] }
  { it with queries := it.queries - 1 }

/-- The end of `shutdown`, when no reply is due any more. -/
def shutdownDone (it : Lookup) : Lookup := { it with stopped := true, replyBuffer := [] }

end Lookup

/-- `query(n, reply)` once `queryfunc(n)` has answered: `none` is `errClosed`, on which it sends
nil, and `some r` the nodes it returned (none on any other error). An empty answer counts one
more failure in the database and, at `maxFindnodeFailures`, deletes the node from the table; an
answer after failures resets the counter. Every node of the answer is added to the table, and
the answer is sent. Gives the database, the table and the reply. -/
def query (db : NodeDB) (w : World) (n : Node) : Option (List Node) → NodeDB × World × List Node
  | none => (db, w, [])
  | some r =>
    let fails := db (n.id, n.ip)
    let dw : NodeDB × World :=
      if r.length = 0 then
        (Function.update db (n.id, n.ip) (fails + 1),
          if maxFindnodeFailures ≤ fails + 1 then w.step (.delete n) else w)
      else if 0 < fails then (Function.update db (n.id, n.ip) 0, w)
      else (db, w)
    (dw.1, r.foldl (fun w m => w.step (.addSeen m)) dw.2, r)

/-- Where the lookup's own goroutine is. -/
inductive LookupPc where
  /-- At the head of the loop of `advance`, about to call `startQueries`. -/
  | start
  /-- In the `select` of `advance`, waiting for a reply or the cancellation. -/
  | wait
  /-- In the loop of `shutdown`, taking the replies still due. -/
  | drain
  /-- `advance` returned false: the lookup is over. -/
  | done
  deriving DecidableEq

/-- The lookup, its goroutines and channel, the table and the database. -/
structure LookupWorld where
  table : World
  db : NodeDB
  lookup : Lookup
  pc : LookupPc
  /-- The nodes whose `query` goroutine has not sent its reply yet. -/
  inflight : List Node
  /-- `replyCh`: the replies sent and not received, oldest first. -/
  replyCh : List (List Node)
  /-- Ghost: the nodes a query was started for, in order. -/
  launched : List Node
  /-- Ghost: the nodes `advance` handed to its caller, in order. -/
  yielded : List Node

/-- What can happen next. -/
inductive LookupEvent where
  /-- Another goroutine's call on the table. -/
  | table (e : Event)
  /-- The lookup goroutine passes `startQueries`. -/
  | advance
  /-- The node of the `i`-th query still out answers `a`, and its goroutine finishes. -/
  | answer (i : Nat) (a : Option (List Node))
  /-- The lookup goroutine receives the oldest reply. -/
  | recv
  /-- The lookup's context is cancelled while it waits. -/
  | cancel

/-- One event; one that the lookup goroutine's position does not allow changes nothing. -/
def LookupWorld.step (w : LookupWorld) : LookupEvent → LookupWorld
  | .table e => { w with table := w.table.step e }
  | .advance =>
    match w.pc with
    | .start =>
      let s := w.lookup.startQueries w.table.table
      { w with lookup := s.lookup, pc := if s.more then .wait else .done,
               replyCh := w.replyCh ++ s.sent, inflight := w.inflight ++ s.queried,
               launched := w.launched ++ s.queried }
    | _ => w
  | .answer i a =>
    match w.inflight[i]? with
    | some n =>
      let q := query w.db w.table n a
      { w with db := q.1, table := q.2.1, inflight := w.inflight.eraseIdx i,
               replyCh := w.replyCh ++ [q.2.2] }
    | none => w
  | .recv =>
    match w.pc, w.replyCh with
    | .wait, nodes :: rest =>
      let it := w.lookup.receive nodes
      { w with lookup := it, replyCh := rest, pc := .start,
               yielded := w.yielded ++ it.replyBuffer }
    | .drain, _ :: rest =>
      -- `<-it.replyCh; it.queries--`, then the loop's test
      let it := { w.lookup with queries := w.lookup.queries - 1 }
      if 0 < it.queries then { w with lookup := it, replyCh := rest }
      else { w with lookup := it.shutdownDone, replyCh := rest, pc := .start }
    | _, _ => w
  | .cancel =>
    match w.pc with
    | .wait =>
      if 0 < w.lookup.queries then { w with pc := .drain }
      else { w with lookup := w.lookup.shutdownDone, pc := .start }
    | _ => w

/-- The start: `newLookup` on the table as it is, nothing out. -/
def LookupWorld.init (t : World) (db : NodeDB) (target : ID) : LookupWorld :=
  ⟨t, db, newLookup t.table target, .start, [], [], [], []⟩

/-- The machine of the interleavings. -/
def lookupMachine : Machine LookupWorld LookupEvent Unit := ⟨fun w e => ((), w.step e)⟩

/-- The world after the events. -/
def runLookup (t : World) (db : NodeDB) (target : ID) (events : List LookupEvent) :
    LookupWorld :=
  (lookupMachine.run (LookupWorld.init t db target) events).2

/-! ## The loop of `startQueries` -/

namespace Lookup

/-- The loop only asks and counts: the lookup after it is the one before, with the nodes it
started a query for added to `asked` and to `queries`. -/
theorem startQueriesLoop_fst : ∀ (ns : List Node) (it : Lookup),
    (startQueriesLoop ns it).1 =
      { it with asked := it.asked ++ (startQueriesLoop ns it).2.map (·.id),
                queries := it.queries + (startQueriesLoop ns it).2.length }
  | [], it => by simp [startQueriesLoop]
  | n :: ns, it => by
    unfold startQueriesLoop
    by_cases hq : it.queries < alpha
    · by_cases ha : n.id ∈ it.asked
      · simp only [hq, ha, if_true]
        exact startQueriesLoop_fst ns it
      · -- `n` is asked: the rest of the loop starts from the lookup that counts it
        simp only [hq, ha, if_true, if_false]
        rw [startQueriesLoop_fst ns]
        simp only [List.map_cons, List.append_assoc, List.singleton_append, List.length_cons,
          Nat.cast_succ]
        congr 1
        ring
    · simp [hq]

theorem startQueriesLoop_sublist : ∀ (ns : List Node) (it : Lookup),
    (startQueriesLoop ns it).2.Sublist ns
  | [], _ => List.Sublist.slnil
  | n :: ns, it => by
    unfold startQueriesLoop
    split_ifs
    · exact (startQueriesLoop_sublist ns it).cons n
    · exact (startQueriesLoop_sublist ns _).cons_cons n
    · exact List.nil_sublist _

/-- No ID is asked twice. -/
theorem startQueriesLoop_nodup : ∀ (ns : List Node) (it : Lookup), it.asked.Nodup →
    (it.asked ++ (startQueriesLoop ns it).2.map (·.id)).Nodup
  | [], _, h => by simpa [startQueriesLoop] using h
  | n :: ns, it, h => by
    unfold startQueriesLoop
    by_cases hq : it.queries < alpha
    · by_cases ha : n.id ∈ it.asked
      · simp only [hq, ha, if_true]
        exact startQueriesLoop_nodup ns it h
      · simp only [hq, ha, if_true, if_false, List.map_cons]
        have hn : (it.asked ++ [n.id]).Nodup :=
          h.append (List.nodup_singleton _) (by simpa using ha)
        have := startQueriesLoop_nodup ns
          ⟨it.asked ++ [n.id], it.seen, it.result, it.replyBuffer, it.queries + 1, it.stopped⟩
          hn
        simpa using this
    · simpa [hq] using h

/-- The loop never lets more than `alpha` queries out. -/
theorem startQueriesLoop_le : ∀ (ns : List Node) (it : Lookup), it.queries ≤ alpha →
    it.queries + (startQueriesLoop ns it).2.length ≤ alpha
  | [], _, h => by simpa [startQueriesLoop] using h
  | n :: ns, it, h => by
    unfold startQueriesLoop
    by_cases hq : it.queries < alpha
    · by_cases ha : n.id ∈ it.asked
      · simp only [hq, ha, if_true]
        exact startQueriesLoop_le ns it h
      · simp only [hq, ha, if_true, if_false, List.length_cons, Nat.cast_succ]
        have := startQueriesLoop_le ns
          ⟨it.asked ++ [n.id], it.seen, it.result, it.replyBuffer, it.queries + 1, it.stopped⟩
          (by dsimp only; omega)
        dsimp only at this
        omega
    · simpa [hq] using h

/-- A loop that ends below `alpha` went through every entry: each one is asked. -/
theorem startQueriesLoop_asks_all : ∀ (ns : List Node) (it : Lookup),
    it.queries + (startQueriesLoop ns it).2.length < alpha →
    ∀ n ∈ ns, n.id ∈ it.asked ++ (startQueriesLoop ns it).2.map (·.id)
  | [], _, _ => by simp
  | n :: ns, it, h => by
    unfold startQueriesLoop at h ⊢
    by_cases hq : it.queries < alpha
    · by_cases ha : n.id ∈ it.asked
      · simp only [hq, ha, if_true] at h ⊢
        intro m hm
        rcases List.mem_cons.mp hm with rfl | hm
        · exact List.mem_append_left _ ha
        · exact startQueriesLoop_asks_all ns it h m hm
      · simp only [hq, ha, if_true, if_false, List.length_cons, Nat.cast_succ,
          List.map_cons] at h ⊢
        have ih := startQueriesLoop_asks_all ns
          ⟨it.asked ++ [n.id], it.seen, it.result, it.replyBuffer, it.queries + 1, it.stopped⟩
          (by dsimp only; omega)
        intro m hm
        rcases List.mem_cons.mp hm with rfl | hm
        · simp
        · simpa using ih m hm
    · -- the loop stops at once with `alpha` queries out, which is not below `alpha`
      simp [hq] at h

end Lookup

/-! ## A reply -/

namespace Lookup

theorem receiveNode_frame (it : Lookup) (n : Node) :
    (it.receiveNode n).asked = it.asked ∧ (it.receiveNode n).queries = it.queries ∧
      (it.receiveNode n).stopped = it.stopped := by
  unfold receiveNode
  split <;> exact ⟨rfl, rfl, rfl⟩

/-- The nodes of a reply change only what is seen, the result and the buffer. -/
theorem foldl_receiveNode_frame : ∀ (nodes : List Node) (it : Lookup),
    (nodes.foldl receiveNode it).asked = it.asked ∧
      (nodes.foldl receiveNode it).queries = it.queries ∧
      (nodes.foldl receiveNode it).stopped = it.stopped
  | [], _ => ⟨rfl, rfl, rfl⟩
  | n :: ns, it => by
    obtain ⟨h₁, h₂, h₃⟩ := foldl_receiveNode_frame ns (it.receiveNode n)
    obtain ⟨k₁, k₂, k₃⟩ := receiveNode_frame it n
    exact ⟨h₁.trans k₁, h₂.trans k₂, h₃.trans k₃⟩

/-- What the nodes of a reply keep, for the nodes `Y` handed out before it: the IDs seen are
those of `Y` and of the buffer, pairwise distinct, and the result holds the nearest of them. -/
structure Receiving (target : ID) (Y : List Node) (it : Lookup) : Prop where
  seen_eq : it.seen = (Y ++ it.replyBuffer).map (·.id)
  seen_nodup : it.seen.Nodup
  target_eq : it.result.target = target
  result_eq : it.result.entries = nearest target bucketSize (Y ++ it.replyBuffer)

variable {target : ID} {Y : List Node}

theorem Receiving.receiveNode {it : Lookup} (h : Receiving target Y it) (n : Node) :
    Receiving target Y (it.receiveNode n) := by
  unfold Lookup.receiveNode
  split
  · exact h
  · next hn =>
    -- a new node: seen, pushed, buffered, all three by the same `n`
    have he : it.result.entries = nearest it.result.target bucketSize (Y ++ it.replyBuffer) := by
      rw [h.target_eq]
      exact h.result_eq
    refine ⟨?_, ?_, ?_, ?_⟩
    · simp [h.seen_eq]
    · exact h.seen_nodup.append (List.nodup_singleton _) (by simpa using hn)
    · exact (push_target _ _ _).trans h.target_eq
    · dsimp only
      rw [push_nearest _ _ n _ he, h.target_eq, List.append_assoc]

theorem Receiving.foldl : ∀ (nodes : List Node) {it : Lookup}, Receiving target Y it →
    Receiving target Y (nodes.foldl Lookup.receiveNode it)
  | [], _, h => h
  | n :: ns, _, h => Receiving.foldl ns (h.receiveNode n)

/-- **A reply keeps what is seen and the result in step with what is handed out.** -/
theorem receive_receiving {it : Lookup} (hseen : it.seen = Y.map (·.id)) (hnd : it.seen.Nodup)
    (htarget : it.result.target = target) (hres : it.result.entries = nearest target bucketSize Y)
    (nodes : List Node) : Receiving target Y (it.receive nodes) := by
  have h0 : Receiving target Y { it with replyBuffer := [] } :=
    ⟨by simpa using hseen, hnd, htarget, by simpa using hres⟩
  -- the count goes down after the nodes, which touches none of what is kept
  have h := Receiving.foldl nodes h0
  exact ⟨h.seen_eq, h.seen_nodup, h.target_eq, h.result_eq⟩

theorem receive_frame (it : Lookup) (nodes : List Node) :
    (it.receive nodes).asked = it.asked ∧ (it.receive nodes).queries = it.queries - 1 ∧
      (it.receive nodes).stopped = it.stopped := by
  obtain ⟨ha, hq, hs⟩ := foldl_receiveNode_frame nodes { it with replyBuffer := [] }
  exact ⟨ha, by simp only [receive, hq], hs⟩

end Lookup

/-! ## The query goroutine -/

/-- The table calls of a query are table events. -/
theorem query_table (db : NodeDB) (w : World) (n : Node) (a : Option (List Node)) :
    ∃ es : List Event, (query db w n a).2.1 = es.foldl World.step w := by
  cases a with
  | none => exact ⟨[], rfl⟩
  | some r =>
    -- the deletion, if any, then one `addSeen` per node of the answer
    have hadd : ∀ (r : List Node) (v : World),
        r.foldl (fun w m => w.step (.addSeen m)) v = (r.map Event.addSeen).foldl World.step v := by
      intro r
      induction r with
      | nil => intro v; rfl
      | cons m r ih => intro v; exact ih _
    simp only [query]
    split_ifs
    · exact ⟨.delete n :: r.map Event.addSeen, hadd r _⟩
    · exact ⟨r.map Event.addSeen, hadd r _⟩
    · exact ⟨r.map Event.addSeen, hadd r _⟩
    · exact ⟨r.map Event.addSeen, hadd r _⟩

theorem foldl_step_selfId : ∀ (es : List Event) (w : World),
    (es.foldl World.step w).table.selfId = w.table.selfId
  | [], _ => rfl
  | e :: es, w => (foldl_step_selfId es (w.step e)).trans (World.step_selfId w e)

theorem foldl_step_tableInv : ∀ (es : List Event) {w : World}, TableInv w.table →
    TableInv (es.foldl World.step w).table
  | [], _, h => h
  | e :: es, _, h => foldl_step_tableInv es (World.step_tableInv h e)

theorem query_selfId (db : NodeDB) (w : World) (n : Node) (a : Option (List Node)) :
    (query db w n a).2.1.table.selfId = w.table.selfId := by
  obtain ⟨es, hes⟩ := query_table db w n a
  rw [hes]
  exact foldl_step_selfId es w

theorem query_tableInv (db : NodeDB) {w : World} (h : TableInv w.table) (n : Node)
    (a : Option (List Node)) : TableInv (query db w n a).2.1.table := by
  obtain ⟨es, hes⟩ := query_table db w n a
  rw [hes]
  exact foldl_step_tableInv es h

/-! ## What `startQueries` can do -/

namespace Lookup

/-- **The three cases of `startQueries`**: a stopped lookup is over; the first query is the
table's answer put on the channel; after it, the loop asks what it can. -/
theorem startQueries_cases (it : Lookup) (tab : Table) :
    (it.stopped = true ∧ it.startQueries tab = ⟨it, false, [], []⟩) ∨
    (it.stopped = false ∧ it.queries = -1 ∧
      it.startQueries tab = ⟨{ it with queries := 1 }, true,
        [(closest tab it.result.target bucketSize false).entries], []⟩) ∨
    (it.stopped = false ∧ it.queries ≠ -1 ∧
      it.startQueries tab = ⟨(startQueriesLoop it.result.entries it).1,
        decide (0 < (startQueriesLoop it.result.entries it).1.queries), [],
        (startQueriesLoop it.result.entries it).2⟩) := by
  cases hs : it.stopped
  · by_cases hq : it.queries = -1
    · exact .inr (.inl ⟨rfl, hq, by simp [startQueries, hs, hq]⟩)
    · exact .inr (.inr ⟨rfl, hq, by simp [startQueries, hs, hq]⟩)
  · exact .inl ⟨rfl, by simp [startQueries, hs]⟩

end Lookup

/-! ## The invariant of every run -/

/-- What every state of a lookup for `target`, on the table of `selfId`, keeps. -/
structure LookupInv (selfId target : ID) (w : LookupWorld) : Prop where
  selfId_eq : w.table.table.selfId = selfId
  /-- `asked` holds the local node and the nodes a query was started for, none twice. -/
  asked_eq : w.lookup.asked = selfId :: w.launched.map (·.id)
  asked_nodup : w.lookup.asked.Nodup
  /-- Only nodes handed out are asked. -/
  launched_yielded : ∀ n ∈ w.launched, n ∈ w.yielded
  /-- `seen` holds the nodes handed out, none twice. -/
  seen_eq : w.lookup.seen = w.yielded.map (·.id)
  seen_nodup : w.lookup.seen.Nodup
  target_eq : w.lookup.result.target = target
  /-- The result holds the nearest of the nodes handed out. -/
  result_eq : w.lookup.result.entries = nearest target bucketSize w.yielded
  /-- Before the first query nothing is out; from it on, `queries` counts the goroutines out and
  the replies on the channel, at most `alpha` of them. -/
  count : (w.lookup.queries = -1 ∧ w.pc = .start ∧ w.lookup.stopped = false ∧
      w.inflight = [] ∧ w.replyCh = []) ∨
    (w.lookup.queries = w.inflight.length + w.replyCh.length ∧
      w.inflight.length + w.replyCh.length ≤ alpha)
  /-- A lookup that waits has a reply due. -/
  waiting : w.pc = .wait ∨ w.pc = .drain → 0 < w.lookup.queries
  /-- A stopped lookup has nothing due and only `advance` left to run. -/
  stopped : w.lookup.stopped = true → w.lookup.queries = 0 ∧ (w.pc = .start ∨ w.pc = .done)
  /-- A lookup that is over has nothing due and, unless it was cancelled, has asked every node
  of its result. -/
  done : w.pc = .done → w.lookup.queries = 0 ∧
    (w.lookup.stopped = false → ∀ e ∈ w.lookup.result.entries, e.id ∈ w.lookup.asked)

namespace LookupInv

variable {selfId target : ID} {w : LookupWorld}

/-- Away from its first position a lookup has made its first query. -/
theorem counted (h : LookupInv selfId target w) (hpc : w.pc ≠ .start) :
    w.lookup.queries = w.inflight.length + w.replyCh.length ∧
      w.inflight.length + w.replyCh.length ≤ alpha :=
  h.count.resolve_left fun h' => hpc h'.2.1

theorem not_stopped (h : LookupInv selfId target w) (hpc : w.pc = .wait ∨ w.pc = .drain) :
    w.lookup.stopped = false := by
  cases hs : w.lookup.stopped
  · rfl
  · rcases (h.stopped hs).2 with h' | h' <;> rcases hpc with hpc | hpc <;> simp [hpc] at h'

theorem init (t : World) (db : NodeDB) (target : ID) :
    LookupInv t.table.selfId target (LookupWorld.init t db target) where
  selfId_eq := rfl
  asked_eq := rfl
  asked_nodup := List.nodup_singleton _
  launched_yielded := fun _ h => absurd h List.not_mem_nil
  seen_eq := rfl
  seen_nodup := List.nodup_nil
  target_eq := rfl
  result_eq := rfl
  count := .inl ⟨rfl, rfl, rfl, rfl, rfl⟩
  waiting := by rintro (h | h) <;> cases h
  stopped := by intro h; cases h
  done := by intro h; cases h

/-- Another goroutine's table call leaves the lookup alone. -/
theorem table (h : LookupInv selfId target w) (e : Event) :
    LookupInv selfId target (w.step (.table e)) :=
  { h with selfId_eq := (World.step_selfId w.table e).trans h.selfId_eq }

/-- A query's answer turns a goroutine out into a reply on the channel. -/
theorem answer (h : LookupInv selfId target w) (i : Nat) (a : Option (List Node)) :
    LookupInv selfId target (w.step (.answer i a)) := by
  cases hi : w.inflight[i]? with
  | none =>
    simp only [LookupWorld.step, hi]
    exact h
  | some n =>
    have hlt : i < w.inflight.length := (List.getElem?_eq_some_iff.mp hi).1
    have hc : w.lookup.queries = w.inflight.length + w.replyCh.length ∧
        w.inflight.length + w.replyCh.length ≤ alpha :=
      h.count.resolve_left fun h' => by simp [h'.2.2.2.1] at hlt
    simp only [LookupWorld.step, hi]
    refine { h with selfId_eq := (query_selfId _ _ _ _).trans h.selfId_eq, count := .inr ?_ }
    simp only [List.length_eraseIdx_of_lt hlt, List.length_append, List.length_singleton]
    omega

/-- **`startQueries` keeps the invariant**: it counts what it starts and never goes past
`alpha`, and it ends the lookup only with nothing out and every entry asked. -/
theorem advance (h : LookupInv selfId target w) : LookupInv selfId target (w.step .advance) := by
  cases hpc : w.pc with
  | wait | drain | done =>
    simp only [LookupWorld.step, hpc]
    exact h
  | start =>
    simp only [LookupWorld.step, hpc]
    rcases Lookup.startQueries_cases w.lookup w.table.table with
      ⟨hs, heq⟩ | ⟨hs, hq, heq⟩ | ⟨hs, hq, heq⟩
    · -- stopped: `advance` returns false at once
      rw [heq]
      simp only [List.append_nil, Bool.false_eq_true, if_false]
      have hq0 := (h.stopped hs).1
      refine { h with count := ?_, waiting := ?_, stopped := ?_, done := ?_ }
      · exact .inr (h.count.resolve_left fun h' => by have := h'.1; omega)
      · rintro (h' | h') <;> cases h'
      · exact fun _ => ⟨hq0, .inr rfl⟩
      · exact fun _ => ⟨hq0, fun hf => absurd (hs.symm.trans hf) (by decide)⟩
    · -- the first query: the table's answer goes on the channel
      rw [heq]
      simp only [List.append_nil, if_true]
      obtain ⟨-, -, -, hin, hch⟩ := h.count.resolve_right fun h' => by
        have := h'.1
        omega
      refine { h with count := .inr ?_, waiting := ?_, stopped := ?_, done := ?_ }
      · simp only [hin, hch, List.nil_append, List.length_nil, List.length_singleton]
        exact ⟨rfl, by decide⟩
      · intro _
        exact Int.one_pos
      · exact fun hf => absurd (hs.symm.trans hf) (by decide)
      · intro h'
        cases h'
    · -- the loop: what it asks is counted, recorded and taken from the result
      rw [heq, Lookup.startQueriesLoop_fst]
      have hc := h.count.resolve_left fun h' => hq h'.1
      have hle := Lookup.startQueriesLoop_le w.lookup.result.entries w.lookup (by omega)
      refine ⟨h.selfId_eq, ?_, Lookup.startQueriesLoop_nodup _ _ h.asked_nodup, ?_, h.seen_eq,
        h.seen_nodup, h.target_eq, h.result_eq, ?_, ?_, ?_, ?_⟩
      · simp [h.asked_eq]
      · intro n hn
        rcases List.mem_append.mp hn with hn | hn
        · exact h.launched_yielded n hn
        · have hres := (Lookup.startQueriesLoop_sublist _ _).subset hn
          rw [h.result_eq] at hres
          exact mem_of_mem_nearest hres
      · refine .inr ⟨?_, ?_⟩
        · simp only [List.length_append, List.append_nil]
          omega
        · simp only [List.length_append, List.append_nil]
          omega
      · intro hw
        dsimp only at hw ⊢
        split at hw
        · next hpos => exact of_decide_eq_true hpos
        · rcases hw with hw | hw <;> cases hw
      · intro hst
        exact absurd (hs.symm.trans hst) (by decide)
      · intro hd
        dsimp only at hd ⊢
        split at hd
        · cases hd
        · next hpos =>
          -- `advance` returned false: nothing was out, and the loop asked nothing and went
          -- through every entry
          have hpos' := of_decide_eq_false (Bool.eq_false_iff.mpr hpos)
          refine ⟨by omega, fun _ => Lookup.startQueriesLoop_asks_all _ _ ?_⟩
          have : (alpha : Int) = 3 := rfl
          omega

/-- **A reply taken keeps the invariant**: in `advance` it is counted down and its new nodes are
handed out, seen and pushed; in `shutdown` it is counted down, and the last one stops the
lookup. -/
theorem recv (h : LookupInv selfId target w) : LookupInv selfId target (w.step .recv) := by
  cases hpc : w.pc with
  | start | done =>
    simp only [LookupWorld.step, hpc]
    exact h
  | wait =>
    cases hch : w.replyCh with
    | nil =>
      simp only [LookupWorld.step, hpc, hch]
      exact h
    | cons nodes rest =>
      simp only [LookupWorld.step, hpc, hch]
      have hR := Lookup.receive_receiving h.seen_eq h.seen_nodup h.target_eq h.result_eq nodes
      obtain ⟨ha, hq, hs⟩ := Lookup.receive_frame w.lookup nodes
      have hc := h.counted (by simp [hpc])
      have hns := h.not_stopped (.inl hpc)
      rw [hch] at hc
      refine ⟨h.selfId_eq, ha.trans h.asked_eq, ha ▸ h.asked_nodup,
        fun n hn => List.mem_append_left _ (h.launched_yielded n hn), hR.seen_eq, hR.seen_nodup,
        hR.target_eq, hR.result_eq, .inr ⟨?_, ?_⟩, ?_, ?_, ?_⟩
      · simp only [List.length_cons] at hc
        dsimp only
        omega
      · simp only [List.length_cons] at hc
        dsimp only
        omega
      · rintro (h' | h') <;> cases h'
      · intro hst
        exact absurd (hns.symm.trans (hs.symm.trans hst)) (by decide)
      · intro h'
        cases h'
  | drain =>
    cases hch : w.replyCh with
    | nil =>
      simp only [LookupWorld.step, hpc, hch]
      exact h
    | cons m rest =>
      simp only [LookupWorld.step, hpc, hch]
      have hc := h.counted (by simp [hpc])
      have hns := h.not_stopped (.inr hpc)
      rw [hch] at hc
      simp only [List.length_cons] at hc
      split
      · -- replies are still due
        next hpos =>
        refine { h with count := .inr ⟨?_, ?_⟩, waiting := fun _ => hpos,
                        stopped := fun hst => absurd (hns.symm.trans hst) (by decide),
                        done := ?_ }
        · dsimp only
          omega
        · dsimp only
          omega
        · intro h'
          cases h'
      · -- the last reply: `shutdown` clears the query function
        next hpos =>
        have hq0 : w.lookup.queries - 1 = 0 := by omega
        refine { h with count := .inr ⟨?_, ?_⟩, waiting := ?_,
                        stopped := fun _ => ⟨hq0, .inl rfl⟩, done := ?_ }
        · dsimp only [Lookup.shutdownDone]
          omega
        · dsimp only
          omega
        · rintro (h' | h') <;> cases h'
        · intro h'
          cases h'

/-- A cancellation makes a waiting lookup drain the replies due. -/
theorem cancel (h : LookupInv selfId target w) : LookupInv selfId target (w.step .cancel) := by
  cases hpc : w.pc with
  | start | drain | done =>
    simp only [LookupWorld.step, hpc]
    exact h
  | wait =>
    have hpos := h.waiting (.inl hpc)
    have hns := h.not_stopped (.inl hpc)
    simp only [LookupWorld.step, hpc, if_pos hpos]
    refine { h with count := ?_, waiting := fun _ => hpos,
                    stopped := fun hst => absurd (hns.symm.trans hst) (by decide), done := ?_ }
    · rcases h.count with h' | h'
      · simp [hpc] at h'
      · exact .inr h'
    · intro h'
      cases h'

/-- **Every event keeps the invariant.** -/
theorem step (h : LookupInv selfId target w) (e : LookupEvent) :
    LookupInv selfId target (w.step e) := by
  cases e with
  | table e => exact h.table e
  | advance => exact h.advance
  | answer i a => exact h.answer i a
  | recv => exact h.recv
  | cancel => exact h.cancel

end LookupInv

/-- **The invariant of every run of a lookup.** -/
theorem runLookup_inv (t : World) (db : NodeDB) (target : ID) (events : List LookupEvent) :
    LookupInv t.table.selfId target (runLookup t db target events) :=
  have hpres : lookupMachine.Preserves (LookupInv t.table.selfId target) :=
    fun _ e h => h.step e
  lookupMachine.run_inv hpres _ events (LookupInv.init t db target)

/-! ## The table under lookups -/

/-- Every event of a lookup keeps the table's invariant: its query goroutines only call
`addSeenNode` and `delete`. -/
theorem LookupWorld.step_tableInv {w : LookupWorld} (h : TableInv w.table.table)
    (e : LookupEvent) : TableInv (w.step e).table.table := by
  cases e with
  | table e => exact World.step_tableInv h e
  | answer i a =>
    cases hi : w.inflight[i]? with
    | none =>
      simp only [LookupWorld.step, hi]
      exact h
    | some n =>
      simp only [LookupWorld.step, hi]
      exact query_tableInv w.db h n a
  | advance =>
    simp only [LookupWorld.step]
    split <;> exact h
  | recv =>
    simp only [LookupWorld.step]
    split
    · exact h
    · split <;> exact h
    · exact h
  | cancel =>
    simp only [LookupWorld.step]
    split
    · split <;> exact h
    · exact h

/-! ## What every lookup guarantees -/

section Guarantees

variable (t : World) (db : NodeDB) (target : ID) (events : List LookupEvent)

/-- **A lookup asks no node twice, and never the local node**: the nodes it started a query
for have pairwise distinct IDs, none of them the table's own, and each is a node it had handed
out. -/
theorem lookup_asks_once :
    ((runLookup t db target events).launched.map (·.id)).Nodup ∧
      t.table.selfId ∉ (runLookup t db target events).launched.map (·.id) ∧
      ∀ n ∈ (runLookup t db target events).launched,
        n ∈ (runLookup t db target events).yielded := by
  set w := runLookup t db target events
  have h : LookupInv t.table.selfId target w := runLookup_inv t db target events
  have hnd := h.asked_nodup
  rw [h.asked_eq] at hnd
  exact ⟨(List.nodup_cons.mp hnd).2, (List.nodup_cons.mp hnd).1, h.launched_yielded⟩

/-- **Every reply is accounted for and the channel never fills**: from the first query on,
`queries` is the number of query goroutines out plus the replies on `replyCh`, at most `alpha`,
the channel's capacity, so no goroutine blocks on its send and no reply is left behind; and
whenever the lookup waits in `advance` or `shutdown`, a reply is on its way. -/
theorem lookup_replies_accounted :
    ((runLookup t db target events).lookup.queries = -1 ∧
        (runLookup t db target events).inflight = [] ∧
        (runLookup t db target events).replyCh = [] ∨
      (runLookup t db target events).lookup.queries =
          (runLookup t db target events).inflight.length +
            (runLookup t db target events).replyCh.length ∧
        (runLookup t db target events).inflight.length +
            (runLookup t db target events).replyCh.length ≤ alpha) ∧
      ((runLookup t db target events).pc = .wait ∨ (runLookup t db target events).pc = .drain →
        (runLookup t db target events).inflight ≠ [] ∨
          (runLookup t db target events).replyCh ≠ []) := by
  set w := runLookup t db target events
  have h : LookupInv t.table.selfId target w := runLookup_inv t db target events
  refine ⟨?_, fun hpc => ?_⟩
  · rcases h.count with ⟨hq, _, _, hin, hch⟩ | hc
    · exact .inl ⟨hq, hin, hch⟩
    · exact .inr hc
  · -- a waiting lookup has made its first query, and its count is positive
    have hpos := h.waiting hpc
    have hc : w.lookup.queries = w.inflight.length + w.replyCh.length :=
      (h.counted (by rcases hpc with hpc | hpc <;> simp [hpc])).1
    by_contra hnone
    simp only [not_or, ne_eq, not_not] at hnone
    rw [hnone.1, hnone.2] at hc
    simp only [List.length_nil, Nat.cast_zero, add_zero] at hc
    omega

/-- **A lookup hands no node out twice**: the nodes `advance` gives its caller, which
`lookupIterator` serves, have pairwise distinct IDs, and they are exactly the ones it has
seen. -/
theorem lookup_yields_once :
    ((runLookup t db target events).yielded.map (·.id)).Nodup ∧
      (runLookup t db target events).lookup.seen =
        (runLookup t db target events).yielded.map (·.id) := by
  set w := runLookup t db target events
  have h : LookupInv t.table.selfId target w := runLookup_inv t db target events
  exact ⟨h.seen_eq ▸ h.seen_nodup, h.seen_eq⟩

/-- **The result is the nearest of everything seen**: at every point of a lookup its result is
the first `bucketSize` of an ordering by XOR distance to the target of all the nodes it has
handed out. -/
theorem lookup_result_nearest :
    (runLookup t db target events).lookup.result.target = target ∧
      ∃ L : List Node, L.Perm (runLookup t db target events).yielded ∧
        L.Pairwise (fun a b => distance target a.id ≤ distance target b.id) ∧
        (runLookup t db target events).lookup.result.entries = L.take bucketSize := by
  set w := runLookup t db target events
  have h : LookupInv t.table.selfId target w := runLookup_inv t db target events
  obtain ⟨L, hperm, hsorted, hnear⟩ := nearest_spec target bucketSize w.yielded
  exact ⟨h.target_eq, L, hperm, hsorted, h.result_eq.trans hnear⟩

/-- **A lookup that ends has nothing out, and unless cancelled it asked its whole result**:
when `advance` returns false no query goroutine is left and no reply is on the channel, and if
the lookup was not cancelled, every node of the result it returns is the local node or one it
queried. -/
theorem lookup_done_asked_all :
    (runLookup t db target events).pc = .done →
      (runLookup t db target events).inflight = [] ∧
      (runLookup t db target events).replyCh = [] ∧
      ((runLookup t db target events).lookup.stopped = false →
        ∀ e ∈ (runLookup t db target events).lookup.result.entries,
          e.id ∈ t.table.selfId :: (runLookup t db target events).launched.map (·.id)) := by
  intro hdone
  set w := runLookup t db target events
  have h : LookupInv t.table.selfId target w := runLookup_inv t db target events
  obtain ⟨hq0, hall⟩ := h.done hdone
  have hc := h.counted (by simp [hdone])
  rw [← h.asked_eq]
  refine ⟨?_, ?_, hall⟩
  · apply List.eq_nil_of_length_eq_zero
    omega
  · apply List.eq_nil_of_length_eq_zero
    omega

/-- A lookup on a table holding one seed: the table answers with the seed, the seed is asked and
answers nothing, and the lookup ends with the seed as its result, asked. -/
theorem lookup_done_asked_all_oneSeed :
    let w := runLookup
      (World.init (Vector.replicate 32 0) [⟨Vector.replicate 32 1, [8, 8, 8, 8], 1, 0⟩])
      (fun _ => 0) (Vector.replicate 32 0)
      [.advance, .recv, .advance, .answer 0 (some []), .recv, .advance]
    w.pc = .done ∧ w.lookup.stopped = false ∧
      w.lookup.result.entries = [⟨Vector.replicate 32 1, [8, 8, 8, 8], 1, 0⟩] ∧
      w.inflight = [] ∧ w.replyCh = [] ∧
      (w.lookup.stopped = false → ∀ e ∈ w.lookup.result.entries,
        e.id ∈ (World.init (Vector.replicate 32 0)
          [⟨Vector.replicate 32 1, [8, 8, 8, 8], 1, 0⟩]).table.selfId ::
            w.launched.map (·.id)) := by
  have hdone : (runLookup
      (World.init (Vector.replicate 32 0) [⟨Vector.replicate 32 1, [8, 8, 8, 8], 1, 0⟩])
      (fun _ => 0) (Vector.replicate 32 0)
      [.advance, .recv, .advance, .answer 0 (some []), .recv, .advance]).pc = .done := by
    decide +kernel
  exact ⟨hdone, by decide +kernel, by decide +kernel, lookup_done_asked_all _ _ _ _ hdone⟩

end Guarantees

end GoMetadium.P2p
