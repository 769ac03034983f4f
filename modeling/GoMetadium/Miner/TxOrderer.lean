import GoMetadium.Lib.RoundRobin
import GoMetadium.Lib.LinkedList
import GoMetadium.Lib.Machine
import GoMetadium.Lib.Except

set_option autoImplicit false

/-! # The transaction orderer of the simple miner loop (`miner/tx_orderer.go`)

`NewTxOrderer` puts one list per account of the pending map on a doubly linked list, in the
order the map is ranged over. `pull(count)` walks the linked list with a cursor that wraps to
the head: at an account with transactions left it appends the next one to `to.txs` and moves
on, at an exhausted account it unlinks the list and moves on without spending the count. The
miner loop (`commitTransactionsSimple`, `miner/worker.go`) reads `to.txs` through `Peek`, which
skips transactions whose hash is in `committedTxs`, then `MarkCommitted` and `Shift` or `Pop`;
prefetch goroutines read ahead through `NextForPrefetch` with their own index. Both pull more
when they reach the end of `to.txs`.

The model: the orderer is a record, each method a function of it; the loops run on fuel that
is always enough (`pull_spec`, `peek_spec`, `nextForPrefetch_spec`). A run is an interleaving
of the miner loop's steps and the prefetch calls (`World.step`, `run`), each one atomic under
the orderer's lock.

The abstraction: an orderer whose linked list visits the positions `order` with the cursor at
`p` will still emit `serve` of its queue, the rest of each account's list from the cursor
round (`Repr`, `queue`); `pull` emits the front of it (`pull_spec`). What was pulled, followed
by what the queue will give, is always the round-robin merge of the pending lists (`Inv`), so
`to.txs` is a prefix of the merge. On top, the miner loop hands out transactions that are
pairwise distinct by hash, none committed before, in list order per account and with at most
one transaction of every other account between two consecutive ones of an account's list; and
`Peek` returns nil only when every pending transaction was handed out or committed
(`WorldInv`).
-/

namespace GoMetadium.Miner

open RoundRobin

/-! ## The model -/

/-- `TxOrdererList`: an account's pending transactions and how many of them were pulled. Its
`prev` and `next` pointers are the links of its node (`DLinked.Node`). -/
structure TxOrdererList (Addr Tx : Type) where
  addr : Addr
  txs : List Tx
  ix : Nat
  sz : Nat

/-- `TxOrderer`. The account lists are the nodes of `list`, whose ends are the orderer's `head`
and `tail`. The `lock` is left out: every method runs as one step under it. -/
structure TxOrderer (Addr Tx H : Type) where
  txs : List Tx
  list : DLinked (TxOrdererList Addr Tx)
  curr : Option Nat
  committedTxs : H → Option Tx
  done : Bool
  ix : Nat
  pix : Nat
  sz : Nat

/-- What a call of `NextForPrefetch` gives back: a transaction, nil, or the point where it
sleeps with the lock released (the next call goes on from there). -/
inductive Prefetched (Tx : Type) where
  | tx (t : Tx)
  | nil
  | sleep

namespace TxOrderer

variable {Addr Tx H : Type}

/-- `listAppend`. -/
def listAppend (o : TxOrderer Addr Tx H) (l : Nat) : TxOrderer Addr Tx H :=
  { o with list := o.list.append l }

/-- `listDelete`. -/
def listDelete (o : TxOrderer Addr Tx H) (l : Nat) : TxOrderer Addr Tx H :=
  { o with list := o.list.delete l }

/-- One pass of the loop of `NewTxOrderer`: a new list for account `a` with transactions `i`,
appended, and its size added to `to.sz`. -/
def addAccount (o : TxOrderer Addr Tx H) (a : Addr) (i : List Tx) : TxOrderer Addr Tx H :=
  let o := { o with list := o.list.alloc ⟨a, i, 0, i.length⟩ }
  { o.listAppend (o.list.nodes.length - 1) with sz := o.sz + i.length }

/-- `NewTxOrderer`, over the accounts of `pending` in the order the map is ranged over. -/
def newTxOrderer (pending : List (Addr × List Tx)) (committedTxs : H → Option Tx) :
    TxOrderer Addr Tx H :=
  let o := pending.foldl (fun (o : TxOrderer Addr Tx H) p => o.addAccount p.1 p.2)
    { txs := [], list := ⟨[], none, none⟩, curr := none, committedTxs := committedTxs,
      done := false, ix := 0, pix := 0, sz := 0 }
  { o with curr := o.list.head }

/-- `Close`. -/
def close (o : TxOrderer Addr Tx H) : TxOrderer Addr Tx H := { o with done := true }

/-- The loop of `pull`, on fuel. A dangling cursor or an index out of range, which Go would
panic on, is `none`. -/
def pullLoop : Nat → Nat → TxOrderer Addr Tx H → Option (TxOrderer Addr Tx H)
  | 0, _, _ => none
  | fuel + 1, count, o =>
    if count = 0 then some o else
    match o.curr with
    | none => some o
    | some c =>
      match o.list.nodes[c]? with
      | none => none
      | some l =>
        if l.val.sz ≤ l.val.ix then
          -- an exhausted list is unlinked; the count is not spent
          let o := o.listDelete c
          pullLoop fuel count { o with curr := l.next.or o.list.head }
        else
          match l.val.txs[l.val.ix]? with
          | none => none
          | some tx =>
            let o := { o with
              txs := o.txs ++ [tx],
              list := o.list.modifyVal c fun v => { v with ix := v.ix + 1 } }
            pullLoop fuel (count - 1) { o with curr := l.next.or o.list.head }

/-- `pull(count)`: every iteration spends the count or unlinks a list, so the fuel is enough. -/
def pull (count : Nat) (o : TxOrderer Addr Tx H) : Option (TxOrderer Addr Tx H) :=
  pullLoop (count + o.list.nodes.length + 1) count o

/-- `Shift`. -/
def shift (o : TxOrderer Addr Tx H) : TxOrderer Addr Tx H := { o with ix := o.ix + 1 }

/-- `Pop`: the same as `Shift`. -/
def pop (o : TxOrderer Addr Tx H) : TxOrderer Addr Tx H := { o with ix := o.ix + 1 }

variable (hash : Tx → H)

/-- The loop of `Peek`, on fuel. -/
def peekLoop : Nat → TxOrderer Addr Tx H → Option (TxOrderer Addr Tx H × Option Tx)
  | 0, _ => none
  | fuel + 1, o => do
    let o ← if o.txs.length ≤ o.ix then o.pull 1000 else some o
    if h : o.ix < o.txs.length then
      if (o.committedTxs (hash o.txs[o.ix])).isSome then
        peekLoop fuel { o with ix := o.ix + 1 }
      else some (o, some o.txs[o.ix])
    else some (o, none)

/-- `Peek`: every iteration that goes on moves `ix` below `sz`, so the fuel is enough. -/
def peek (o : TxOrderer Addr Tx H) : Option (TxOrderer Addr Tx H × Option Tx) :=
  peekLoop hash (o.sz + 1) o

/-- The loop of `NextForPrefetch`, on fuel. -/
def nextForPrefetchLoop : Nat → TxOrderer Addr Tx H → Option (TxOrderer Addr Tx H × Prefetched Tx)
  | 0, _ => none
  | fuel + 1, o =>
    if o.done then some (o, .nil)
    else if o.ix < o.pix ∧ o.ix + 100 < o.pix then some (o, .sleep)
    else do
      let o := if o.pix ≤ o.ix then { o with pix := o.ix + 1 } else o
      let o ← if o.txs.length ≤ o.pix then o.pull 1000 else some o
      if h : o.pix < o.txs.length then
        if (o.committedTxs (hash o.txs[o.pix])).isSome then
          nextForPrefetchLoop fuel { o with pix := o.pix + 1 }
        else some ({ o with pix := o.pix + 1 }, .tx o.txs[o.pix])
      else some (o, .nil)

/-- `NextForPrefetch`: every iteration that goes on moves `pix` up to at most `sz`. -/
def nextForPrefetch (o : TxOrderer Addr Tx H) : Option (TxOrderer Addr Tx H × Prefetched Tx) :=
  nextForPrefetchLoop hash (o.sz + 1) o

/-- `MarkCommitted`. -/
def markCommitted [DecidableEq H] (o : TxOrderer Addr Tx H) (tx : Tx) : TxOrderer Addr Tx H :=
  { o with committedTxs := Function.update o.committedTxs (hash tx) (some tx) }

end TxOrderer

/-! ## The miner loop and the prefetch goroutines -/

/-- Where `commitTransactionsSimple` is in its loop. -/
inductive Pc (Tx : Type) where
  /-- At the top of the loop. -/
  | loop
  /-- `Peek` returned `tx`. -/
  | peeked (tx : Tx)
  /-- `MarkCommitted` ran; `Shift` or `Pop` is next. -/
  | marked
  /-- `Peek` returned nil: the loop broke and the deferred `Close` ran. -/
  | exhausted
  /-- The loop broke or returned on an interrupt, the gas left or the time; `Close` ran. -/
  | stopped
  deriving DecidableEq

/-- The steps of a run: a prefetch goroutine's call of `NextForPrefetch`, or the miner loop's
next step, which its own branch decides (`stop` for the interrupt, gas and time checks, `shift`
and `pop` for the outcomes of `commitTransaction`). -/
inductive Event where
  | prefetch
  | stop
  | peek
  | mark
  | shift
  | pop
  deriving DecidableEq

/-- The orderer, the miner loop's position, and the transactions `Peek` handed to it. -/
structure World (Addr Tx H : Type) where
  orderer : TxOrderer Addr Tx H
  pc : Pc Tx
  returned : List Tx

variable {Addr Tx H : Type} [DecidableEq H] (hash : Tx → H)

/-- One step; an event that the miner loop's position does not allow changes nothing. -/
def World.step (w : World Addr Tx H) : Event → Option (World Addr Tx H)
  | .prefetch => (w.orderer.nextForPrefetch hash).map fun r => { w with orderer := r.1 }
  | .stop =>
    match w.pc with
    | .loop | .peeked _ => some { w with orderer := w.orderer.close, pc := .stopped }
    | _ => some w
  | .peek =>
    match w.pc with
    | .loop =>
      (w.orderer.peek hash).map fun r =>
        match r.2 with
        | none => { w with orderer := r.1.close, pc := .exhausted }
        | some tx => { orderer := r.1, pc := .peeked tx, returned := w.returned ++ [tx] }
    | _ => some w
  | .mark =>
    match w.pc with
    | .peeked tx => some { w with orderer := w.orderer.markCommitted hash tx, pc := .marked }
    | _ => some w
  | .shift =>
    match w.pc with
    | .marked => some { w with orderer := w.orderer.shift, pc := .loop }
    | _ => some w
  | .pop =>
    match w.pc with
    | .marked => some { w with orderer := w.orderer.pop, pc := .loop }
    | _ => some w

/-- The start: the orderer `NewTxOrderer(pending, committedTxs)` and the loop at its top. -/
def World.init (pending : List (Addr × List Tx)) (committedTxs : H → Option Tx) :
    World Addr Tx H :=
  ⟨TxOrderer.newTxOrderer pending committedTxs, .loop, []⟩

/-- The machine of the interleavings: a step that panics or runs out of fuel gives `none`,
which stays. -/
def machine : Machine (Option (World Addr Tx H)) Event Unit :=
  ⟨fun o e => ((), o.bind (·.step hash e))⟩

/-- The world after the events. -/
def run (pending : List (Addr × List Tx)) (committedTxs : H → Option Tx) (events : List Event) :
    Option (World Addr Tx H) :=
  ((machine hash).run (some (World.init pending committedTxs)) events).2

/-! ## The queue under the cursor -/

namespace TxOrderer

variable {Addr Tx H : Type}

/-- What is left of the list at node `j`. -/
def remaining (nodes : List (DLinked.Node (TxOrdererList Addr Tx))) (j : Nat) : List Tx :=
  match DLinked.valOf nodes j with
  | some v => v.txs.drop v.ix
  | none => []

/-- The lists the cursor serves, from its position round to the one before it. -/
def queue (o : TxOrderer Addr Tx H) (order : List Nat) (p : Nat) : List (List Tx) :=
  (order.drop p ++ order.take p).map (remaining o.list.nodes)

/-- The linked list visits `order`, the cursor stands at position `p`, and every list on it has
its own length as size and has not been pulled past its end. -/
structure Repr (o : TxOrderer Addr Tx H) (order : List Nat) (p : Nat) : Prop where
  links : DLinked.Links o.list order
  curr_eq : o.curr = order[p]?
  pos : p = 0 ∨ p < order.length
  wf : ∀ j ∈ order, ∃ v, DLinked.valOf o.list.nodes j = some v ∧ v.sz = v.txs.length ∧ v.ix ≤ v.sz

/-- `o'` is `o` after its queue emitted `out`: `out` went to `to.txs`, the queue lost it, and
nothing but `to.txs`, the lists and the cursor changed. -/
structure Emits (o o' : TxOrderer Addr Tx H) (order : List Nat) (p : Nat) (order' : List Nat)
    (p' : Nat) (out : List Tx) : Prop where
  repr : o'.Repr order' p'
  txs_eq : o'.txs = o.txs ++ out
  serve_eq : serve (o.queue order p) = out ++ serve (o'.queue order' p')
  frame : o' = { o with txs := o'.txs, list := o'.list, curr := o'.curr }

theorem Emits.trans {o o₁ o₂ : TxOrderer Addr Tx H} {order order₁ order₂ : List Nat}
    {p p₁ p₂ : Nat} {out₁ out₂ : List Tx} (h₁ : Emits o o₁ order p order₁ p₁ out₁)
    (h₂ : Emits o₁ o₂ order₁ p₁ order₂ p₂ out₂) : Emits o o₂ order p order₂ p₂ (out₁ ++ out₂) where
  repr := h₂.repr
  txs_eq := by rw [h₂.txs_eq, h₁.txs_eq, List.append_assoc]
  serve_eq := by rw [h₁.serve_eq, h₂.serve_eq, List.append_assoc]
  frame := by rw [h₂.frame, h₁.frame]

theorem Emits.refl {o : TxOrderer Addr Tx H} {order : List Nat} {p : Nat} (h : o.Repr order p) :
    Emits o o order p order p [] :=
  ⟨h, by simp, by simp, rfl⟩

/-- The representation reads only the lists and the cursor. -/
theorem Repr.of_eq {o o' : TxOrderer Addr Tx H} {order : List Nat} {p : Nat} (h : o.Repr order p)
    (hl : o'.list = o.list) (hc : o'.curr = o.curr) : o'.Repr order p where
  links := by rw [hl]; exact h.links
  curr_eq := by rw [hc]; exact h.curr_eq
  pos := h.pos
  wf := by rw [hl]; exact h.wf

theorem Repr.getElem?_curr {o : TxOrderer Addr Tx H} {order : List Nat} {p c : Nat}
    (h : o.Repr order p) (hc : o.curr = some c) : order[p]? = some c :=
  h.curr_eq ▸ hc

theorem Repr.queue_eq_nil {o : TxOrderer Addr Tx H} {order : List Nat} {p : Nat}
    (h : o.Repr order p) (hc : o.curr = none) : o.queue order p = [] := by
  -- no cursor: the list is empty
  have : order = [] := by
    rcases h.pos with rfl | hp
    · simpa [hc] using h.curr_eq.symm
    · exact absurd (h.curr_eq.symm.trans hc) (by simp [hp])
  simp [queue, this]

theorem Repr.node {o : TxOrderer Addr Tx H} {order : List Nat} {p c : Nat}
    {l : DLinked.Node (TxOrdererList Addr Tx)} (h : o.Repr order p) (hc : order[p]? = some c)
    (hl : o.list.nodes[c]? = some l) : l.val.sz = l.val.txs.length ∧ l.val.ix ≤ l.val.sz := by
  obtain ⟨v, hv, hsz, hix⟩ := h.wf c (List.mem_of_getElem? hc)
  have : l.val = v := by simpa [DLinked.valOf, hl] using hv
  exact this ▸ ⟨hsz, hix⟩

theorem remaining_of_node {nodes : List (DLinked.Node (TxOrdererList Addr Tx))} {c : Nat}
    {l : DLinked.Node (TxOrdererList Addr Tx)} (hl : nodes[c]? = some l) :
    remaining nodes c = l.val.txs.drop l.val.ix := by
  simp [remaining, DLinked.valOf, hl]

theorem queue_eq_cons {o : TxOrderer Addr Tx H} {order : List Nat} {p c : Nat}
    (hc : order[p]? = some c) :
    o.queue order p =
      remaining o.list.nodes c :: (order.drop (p + 1) ++ order.take p).map (remaining o.list.nodes) := by
  obtain ⟨hp, rfl⟩ := List.getElem?_eq_some_iff.mp hc
  rw [queue, rotation_eq_cons hp, List.map_cons]

/-- The node under the cursor is not anywhere else in the rotation. -/
theorem not_mem_rotation_tail {order : List Nat} (hnd : order.Nodup) {p c : Nat}
    (hc : order[p]? = some c) : c ∉ order.drop (p + 1) ++ order.take p := by
  obtain ⟨hp, rfl⟩ := List.getElem?_eq_some_iff.mp hc
  have hrot : (order.drop p ++ order.take p).Nodup :=
    List.nodup_append_comm.mp (by rw [List.take_append_drop]; exact hnd)
  rw [rotation_eq_cons hp] at hrot
  exact (List.nodup_cons.mp hrot).1

/-- **An exhausted list is unlinked**: the queue loses an empty list, and nothing is emitted. -/
theorem emits_delete {o : TxOrderer Addr Tx H} {order : List Nat} {p c : Nat}
    {l : DLinked.Node (TxOrdererList Addr Tx)} (h : o.Repr order p) (hc : order[p]? = some c)
    (hl : o.list.nodes[c]? = some l) (hex : l.val.sz ≤ l.val.ix) :
    Emits o { o.listDelete c with curr := l.next.or (o.listDelete c).list.head } order p
      (order.eraseIdx p) (if p + 1 < order.length then p else 0) [] := by
  have hp : p < order.length := (List.getElem?_eq_some_iff.mp hc).1
  have hlinks := h.links.delete hc
  have hnext := h.links.next_node hc hl
  have hrem : ∀ j, remaining (o.list.delete c).nodes j = remaining o.list.nodes j := by
    intro j; simp [remaining]
  refine ⟨⟨hlinks, ?_, ?_, ?_⟩, by simp [listDelete], ?_, rfl⟩
  · -- the cursor moves to the successor, or to the head after the last list
    show l.next.or (o.list.delete c).head = _
    rw [hnext]
    split_ifs with h1
    · rw [List.getElem?_eraseIdx, if_neg (Nat.lt_irrefl p), List.getElem?_eq_getElem h1]; rfl
    · rw [List.getElem?_eq_none (by omega), Option.none_or, hlinks.head_eq]
  · split_ifs with h1
    · right; rw [List.length_eraseIdx, if_pos hp]; omega
    · left; rfl
  · intro j hj
    simpa [listDelete] using h.wf j (List.mem_of_mem_eraseIdx hj)
  · -- the list under the cursor is empty and goes
    obtain ⟨hsz, -⟩ := h.node hc hl
    have hnil : remaining o.list.nodes c = [] := by
      rw [remaining_of_node hl, List.drop_eq_nil_of_le (by omega)]
    have hq : ({ o.listDelete c with curr := l.next.or (o.listDelete c).list.head } :
        TxOrderer Addr Tx H).queue (order.eraseIdx p) (if p + 1 < order.length then p else 0) =
        (order.drop (p + 1) ++ order.take p).map (remaining o.list.nodes) := by
      simp only [queue, listDelete, rotation_eraseIdx hp]
      exact List.map_congr_left fun j _ => hrem j
    rw [hq, queue_eq_cons hc, hnil, serve_cons_nil, List.nil_append]

/-- **A list with transactions left gives one**: its next transaction is emitted, and the list
goes to the back of the queue with the rest. -/
theorem emits_pull {o : TxOrderer Addr Tx H} {order : List Nat} {p c : Nat}
    {l : DLinked.Node (TxOrdererList Addr Tx)} (h : o.Repr order p) (hc : order[p]? = some c)
    (hl : o.list.nodes[c]? = some l) (hlt : ¬ l.val.sz ≤ l.val.ix) :
    ∃ tx, l.val.txs[l.val.ix]? = some tx ∧
      Emits o
        { o with
          txs := o.txs ++ [tx],
          list := o.list.modifyVal c fun v => { v with ix := v.ix + 1 },
          curr := l.next.or (o.list.modifyVal c fun v => { v with ix := v.ix + 1 }).head }
        order p order (nextPos order.length p) [tx] := by
  have hp : p < order.length := (List.getElem?_eq_some_iff.mp hc).1
  obtain ⟨hsz, -⟩ := h.node hc hl
  have hix : l.val.ix < l.val.txs.length := by omega
  refine ⟨l.val.txs[l.val.ix], List.getElem?_eq_getElem hix, ?_⟩
  set f : TxOrdererList Addr Tx → TxOrdererList Addr Tx := fun v => { v with ix := v.ix + 1 }
  have hlinks := h.links.modifyVal c f
  have hnext := h.links.next_node hc hl
  have hval : ∀ j, DLinked.valOf (o.list.modifyVal c f).nodes j =
      if c = j then (DLinked.valOf o.list.nodes j).map f else DLinked.valOf o.list.nodes j :=
    DLinked.valOf_modifyVal o.list c f
  have hrem : ∀ j, j ≠ c → remaining (o.list.modifyVal c f).nodes j = remaining o.list.nodes j := by
    intro j hj; simp [remaining, hval, Ne.symm hj]
  have hvc : DLinked.valOf o.list.nodes c = some l.val := by simp [DLinked.valOf, hl]
  have hremc : remaining (o.list.modifyVal c f).nodes c = l.val.txs.drop (l.val.ix + 1) := by
    rw [remaining, hval c, if_pos rfl, hvc]
    rfl
  refine ⟨⟨hlinks, ?_, ?_, ?_⟩, rfl, ?_, rfl⟩
  · show l.next.or (o.list.modifyVal c f).head = _
    rw [hnext, nextPos]
    split_ifs with h1
    · rw [List.getElem?_eq_getElem h1]; rfl
    · rw [List.getElem?_eq_none (by omega), Option.none_or]
      exact hlinks.head_eq
  · unfold nextPos; split_ifs with h1
    · exact Or.inr h1
    · exact Or.inl rfl
  · intro j hj
    obtain ⟨v, hv, hvsz, hvix⟩ := h.wf j hj
    by_cases hcj : c = j
    · subst hcj
      have hvl : v = l.val := by simpa [DLinked.valOf, hl] using hv.symm
      subst hvl
      exact ⟨f l.val, by simp [hval, hv], hvsz, by simp only [f]; omega⟩
    · exact ⟨v, by simp [hval, hcj, hv], hvsz, hvix⟩
  · -- the list under the cursor gives its head and goes to the back with its tail
    have hnot := not_mem_rotation_tail h.links.nodup hc
    have hmap : (order.drop (p + 1) ++ order.take p).map (remaining (o.list.modifyVal c f).nodes) =
        (order.drop (p + 1) ++ order.take p).map (remaining o.list.nodes) :=
      List.map_congr_left fun j hj => hrem j (fun hjc => hnot (hjc ▸ hj))
    have hhead : remaining o.list.nodes c = l.val.txs[l.val.ix] :: l.val.txs.drop (l.val.ix + 1) := by
      rw [remaining_of_node hl, List.drop_eq_getElem_cons hix]
    rw [queue_eq_cons hc, hhead, serve_cons_cons]
    have hcp : order[p] = c := (List.getElem?_eq_some_iff.mp hc).2
    simp only [queue, rotation_nextPos hp, List.map_append, hmap, List.map_cons, List.map_nil,
      hcp, hremc]
    rfl

/-! ## The loops -/

/-- `o'` agrees with `o` on the committed map, `done` and `sz`. -/
structure Keeps (o o' : TxOrderer Addr Tx H) : Prop where
  committedTxs : o'.committedTxs = o.committedTxs
  done : o'.done = o.done
  sz : o'.sz = o.sz

theorem Keeps.refl (o : TxOrderer Addr Tx H) : Keeps o o := ⟨rfl, rfl, rfl⟩

theorem Keeps.trans {o o₁ o₂ : TxOrderer Addr Tx H} (h₁ : Keeps o o₁) (h₂ : Keeps o₁ o₂) :
    Keeps o o₂ :=
  ⟨h₂.committedTxs.trans h₁.committedTxs, h₂.done.trans h₁.done, h₂.sz.trans h₁.sz⟩

theorem Emits.keeps {o o' : TxOrderer Addr Tx H} {order order' : List Nat} {p p' : Nat}
    {out : List Tx} (h : Emits o o' order p order' p' out) :
    Keeps o o' ∧ o'.ix = o.ix ∧ o'.pix = o.pix := by
  rw [h.frame]
  exact ⟨⟨rfl, rfl, rfl⟩, rfl, rfl⟩

/-- The front of what the queue serves: what was emitted, then the front of what is left. -/
theorem Emits.serve_take {o o' : TxOrderer Addr Tx H} {order order' : List Nat} {p p' : Nat}
    {out : List Tx} (h : Emits o o' order p order' p' out) (n : Nat) :
    (serve (o.queue order p)).take (out.length + n) = out ++ (serve (o'.queue order' p')).take n := by
  rw [h.serve_eq, List.take_length_add_append]

/-- **The loop of `pull` emits the front of the queue**: given fuel above the count and the
number of lists, it appends the next `count` transactions the queue serves, or all of them. -/
theorem pullLoop_spec : ∀ (fuel count : Nat) (o : TxOrderer Addr Tx H) (order : List Nat)
    (p : Nat), o.Repr order p → count + order.length < fuel →
    ∃ o' order' p', pullLoop fuel count o = some o' ∧
      Emits o o' order p order' p' ((serve (o.queue order p)).take count)
  | 0, _, _, _, _, _, hf => absurd hf (Nat.not_lt_zero _)
  | fuel + 1, count, o, order, p, h, hf => by
    by_cases h0 : count = 0
    · subst h0
      exact ⟨o, order, p, by simp [pullLoop], by simpa using Emits.refl h⟩
    cases hc : o.curr with
    | none =>
      -- no list is left
      refine ⟨o, order, p, by simp [pullLoop, h0, hc], ?_⟩
      rw [h.queue_eq_nil hc]
      simpa using Emits.refl h
    | some c =>
      have hcp := h.getElem?_curr hc
      have hci : c < o.list.nodes.length := h.links.lt_of_getElem? hcp
      obtain ⟨l, hl⟩ : ∃ l, o.list.nodes[c]? = some l := ⟨_, List.getElem?_eq_getElem hci⟩
      have hp : p < order.length := (List.getElem?_eq_some_iff.mp hcp).1
      by_cases hex : l.val.sz ≤ l.val.ix
      · -- the list is unlinked; the count stays and one list fewer is left
        have hstep := emits_delete h hcp hl hex
        have hlen : (order.eraseIdx p).length + 1 = order.length := by
          rw [List.length_eraseIdx, if_pos hp]; omega
        obtain ⟨o', order', p', hrun, hrest⟩ :=
          pullLoop_spec fuel count _ _ _ hstep.repr (by omega)
        refine ⟨o', order', p', by simpa [pullLoop, h0, hc, hl, hex] using hrun, ?_⟩
        have hout := hstep.trans hrest
        rwa [← hstep.serve_take count, List.length_nil, Nat.zero_add] at hout
      · -- the list gives its next transaction, which spends one of the count
        obtain ⟨tx, htx, hstep⟩ := emits_pull h hcp hl hex
        obtain ⟨o', order', p', hrun, hrest⟩ :=
          pullLoop_spec fuel (count - 1) _ _ _ hstep.repr (by omega)
        refine ⟨o', order', p', by simpa [pullLoop, h0, hc, hl, hex, htx] using hrun, ?_⟩
        have hout := hstep.trans hrest
        rwa [← hstep.serve_take (count - 1), List.length_singleton, Nat.add_comm,
          Nat.sub_add_cancel (Nat.pos_of_ne_zero h0)] at hout

/-- **`pull(count)` emits the front of the queue**, the fuel it gives being enough. -/
theorem pull_spec {o : TxOrderer Addr Tx H} {order : List Nat} {p : Nat} (h : o.Repr order p)
    (count : Nat) :
    ∃ o' order' p', o.pull count = some o' ∧
      Emits o o' order p order' p' ((serve (o.queue order p)).take count) :=
  pullLoop_spec _ count o order p h (by have := h.links.length_le; omega)

/-! ## The invariant -/

section Inv

variable (pending : List (Addr × List Tx))

/-- The orderer's invariant: what was pulled, followed by what its queue will still emit, is
the round-robin merge of the pending lists; `sz` counts them all, and `ix` stays within
`to.txs`. -/
structure Inv (o : TxOrderer Addr Tx H) : Prop where
  repr : ∃ order p, o.Repr order p ∧
    o.txs ++ serve (o.queue order p) = roundRobin (pending.map Prod.snd)
  sz_eq : o.sz = (roundRobin (pending.map Prod.snd)).length
  ix_le : o.ix ≤ o.txs.length

variable {pending}

theorem Inv.pulled_isPrefix {o : TxOrderer Addr Tx H} (h : Inv pending o) :
    o.txs <+: roundRobin (pending.map Prod.snd) := by
  obtain ⟨order, p, -, heq⟩ := h.repr
  exact ⟨_, heq⟩

theorem Inv.length_le {o : TxOrderer Addr Tx H} (h : Inv pending o) : o.txs.length ≤ o.sz := by
  rw [h.sz_eq]
  exact h.pulled_isPrefix.length_le

/-- An orderer that differs only in `ix` and `pix`, with `ix` within `to.txs`, keeps it. -/
theorem Inv.with_ix_pix {o : TxOrderer Addr Tx H} (h : Inv pending o) (i j : Nat)
    (hi : i ≤ o.txs.length) : Inv pending { o with ix := i, pix := j } := by
  obtain ⟨order, p, hr, heq⟩ := h.repr
  exact ⟨⟨order, p, hr.of_eq rfl rfl, heq⟩, h.sz_eq, hi⟩

theorem Inv.with_ix {o : TxOrderer Addr Tx H} (h : Inv pending o) (i : Nat)
    (hi : i ≤ o.txs.length) : Inv pending { o with ix := i } :=
  h.with_ix_pix i o.pix hi

theorem Inv.with_pix {o : TxOrderer Addr Tx H} (h : Inv pending o) (j : Nat) :
    Inv pending { o with pix := j } :=
  h.with_ix_pix o.ix j h.ix_le

/-- **`pull` keeps the invariant** and appends the next `count` transactions of the merge. -/
theorem Inv.pull {o : TxOrderer Addr Tx H} (h : Inv pending o) (count : Nat) :
    ∃ o', o.pull count = some o' ∧ Inv pending o' ∧ Keeps o o' ∧ o'.ix = o.ix ∧
      o'.pix = o.pix ∧ ∃ rest, o.txs ++ rest = roundRobin (pending.map Prod.snd) ∧
        o'.txs = o.txs ++ rest.take count := by
  obtain ⟨order, p, hr, heq⟩ := h.repr
  obtain ⟨o', order', p', hrun, hem⟩ := pull_spec hr count
  obtain ⟨hkeeps, hix, hpix⟩ := hem.keeps
  have hrest : o'.txs ++ serve (o'.queue order' p') = roundRobin (pending.map Prod.snd) := by
    rw [hem.txs_eq, List.append_assoc, ← hem.serve_eq, heq]
  refine ⟨o', hrun, ⟨⟨order', p', hem.repr, hrest⟩, hkeeps.sz.trans h.sz_eq, ?_⟩, hkeeps, hix,
    hpix, _, heq, hem.txs_eq⟩
  rw [hix, hem.txs_eq, List.length_append]
  exact le_add_right h.ix_le

/-- The pull at the end of `to.txs` that `Peek` and `NextForPrefetch` make (at index `i`):
it keeps the invariant, and it appends the next `count` transactions of the merge when it
happens. -/
theorem Inv.pullIf {o : TxOrderer Addr Tx H} (h : Inv pending o) (i count : Nat) :
    ∃ o₁, (if o.txs.length ≤ i then o.pull count else some o) = some o₁ ∧ Inv pending o₁ ∧
      Keeps o o₁ ∧ o₁.ix = o.ix ∧ o₁.pix = o.pix ∧ o.txs <+: o₁.txs ∧
      (i < o.txs.length → o₁ = o) ∧
      (o.txs.length ≤ i → ∃ rest, o.txs ++ rest = roundRobin (pending.map Prod.snd) ∧
        o₁.txs = o.txs ++ rest.take count) := by
  by_cases hend : o.txs.length ≤ i
  · obtain ⟨o₁, hrun, h₁, hk, hix, hpix, rest, heq, htxs⟩ := h.pull count
    exact ⟨o₁, by rw [if_pos hend, hrun], h₁, hk, hix, hpix, htxs ▸ List.prefix_append _ _,
      fun hlt => absurd hlt (by omega), fun _ => ⟨rest, heq, htxs⟩⟩
  · exact ⟨o, by rw [if_neg hend], h, Keeps.refl o, rfl, rfl, List.prefix_refl _,
      fun _ => rfl, fun h' => absurd h' hend⟩

end Inv

/-! ## Peek and NextForPrefetch -/

section Loops

variable (pending : List (Addr × List Tx)) (hash : Tx → H)

/-- What `Peek` does: it keeps the invariant, pulls only at the end of `to.txs`, moves `ix`
past transactions whose hash is committed, and returns the transaction at the new `ix`, or nil
once the whole merge is pulled and passed. -/
structure PeekSpec (o o' : TxOrderer Addr Tx H) (r : Option Tx) : Prop where
  inv : Inv pending o'
  keeps : Keeps o o'
  pix : o'.pix = o.pix
  grows : o.txs <+: o'.txs
  ix_le : o.ix ≤ o'.ix
  skipped : ∀ t ∈ o'.txs.take o'.ix, t ∈ o.txs.take o.ix ∨ (o.committedTxs (hash t)).isSome
  found : ∀ tx, r = some tx → o'.txs[o'.ix]? = some tx ∧ o.committedTxs (hash tx) = none
  exhausted : r = none → o'.txs = roundRobin (pending.map Prod.snd) ∧ o'.txs.length ≤ o'.ix

theorem peekLoop_succ (fuel : Nat) (o : TxOrderer Addr Tx H) :
    peekLoop hash (fuel + 1) o =
      (if o.txs.length ≤ o.ix then o.pull 1000 else some o).bind fun o =>
        if h : o.ix < o.txs.length then
          if (o.committedTxs (hash o.txs[o.ix])).isSome then
            peekLoop hash fuel { o with ix := o.ix + 1 }
          else some (o, some o.txs[o.ix])
        else some (o, none) := by
  -- the do block binds inside each branch of the pull
  rw [peekLoop]
  by_cases hc : o.txs.length ≤ o.ix
  · rw [if_pos hc, if_pos hc]; rfl
  · rw [if_neg hc, if_neg hc]; rfl

variable {pending hash}

/-- The first `i` transactions do not change when `to.txs` grows. -/
theorem take_of_prefix {l l' : List Tx} (h : l <+: l') {i : Nat} (hi : i ≤ l.length) :
    l'.take i = l.take i := by
  obtain ⟨t, rfl⟩ := h
  exact List.take_append_of_le_length hi

/-- **`Peek` meets its spec** on every orderer that keeps the invariant, given fuel above
`sz - ix`: each iteration that goes on moves `ix` up, and `ix` stays below `sz`. -/
theorem peekLoop_spec : ∀ (fuel : Nat) (o : TxOrderer Addr Tx H), Inv pending o →
    o.sz < fuel + o.ix → ∃ o' r, peekLoop hash fuel o = some (o', r) ∧ PeekSpec pending hash o o' r
  | 0, o, h, hf => absurd hf (by have := h.length_le; have := h.ix_le; omega)
  | fuel + 1, o, h, hf => by
    obtain ⟨o₁, hpull, h₁, hk₁, hix₁, hpix₁, hpre₁, hsame, hend⟩ := h.pullIf o.ix 1000
    have htake : o₁.txs.take o₁.ix = o.txs.take o.ix := by
      rw [hix₁]; exact take_of_prefix hpre₁ h.ix_le
    rw [peekLoop_succ, hpull, Option.bind_some]
    by_cases hlt : o₁.ix < o₁.txs.length
    · rw [dif_pos hlt]
      have hget : o₁.txs[o₁.ix]? = some o₁.txs[o₁.ix] := List.getElem?_eq_getElem hlt
      by_cases hcom : (o₁.committedTxs (hash o₁.txs[o₁.ix])).isSome
      · -- a committed transaction is skipped
        rw [if_pos hcom]
        have h₂ : Inv pending { o₁ with ix := o₁.ix + 1 } := h₁.with_ix _ hlt
        obtain ⟨o', r, hrun, hs⟩ := peekLoop_spec fuel _ h₂ (by simp [hk₁.sz, hix₁]; omega)
        have hk₂ : Keeps o₁ { o₁ with ix := o₁.ix + 1 } := ⟨rfl, rfl, rfl⟩
        refine ⟨o', r, hrun, hs.inv, hk₁.trans (hk₂.trans hs.keeps),
          hs.pix.trans hpix₁, hpre₁.trans hs.grows, by have := hs.ix_le; simp at this; omega,
          fun t ht => ?_, fun tx hr => ?_, hs.exhausted⟩
        · rcases hs.skipped t ht with ht | ht
          · -- the transactions passed so far, and the one just skipped
            dsimp only at ht
            rw [List.take_add_one, hget, Option.toList_some, htake] at ht
            rcases List.mem_append.mp ht with ht | ht
            · exact Or.inl ht
            · rw [List.mem_singleton.mp ht, ← hk₁.committedTxs]
              exact Or.inr hcom
          · exact Or.inr (hk₁.committedTxs ▸ ht)
        · obtain ⟨hget', hnone⟩ := hs.found tx hr
          exact ⟨hget', hk₁.committedTxs ▸ hnone⟩
      · -- the first transaction not committed is returned
        rw [if_neg hcom]
        refine ⟨o₁, _, rfl, h₁, hk₁, hpix₁, hpre₁, by omega, fun t ht => ?_, fun tx hr => ?_,
          fun hr => absurd hr (by simp)⟩
        · rw [htake] at ht
          exact Or.inl ht
        · cases hr
          exact ⟨hget, hk₁.committedTxs ▸ Option.not_isSome_iff_eq_none.mp hcom⟩
    · -- nothing left after the pull: the whole merge is in to.txs
      rw [dif_neg hlt]
      have hend' : o.txs.length ≤ o.ix := by
        by_contra hgt
        have := hsame (by omega)
        subst this
        exact hlt (by omega)
      obtain ⟨rest, heq, htxs⟩ := hend hend'
      have hnil : rest.take 1000 = [] := by
        have := congrArg List.length htxs
        simp only [List.length_append] at this
        have := h.ix_le
        exact List.eq_nil_of_length_eq_zero (by omega)
      have hrest : rest = [] := (List.take_eq_nil_iff.mp hnil).resolve_left (by decide)
      have hall : o₁.txs = roundRobin (pending.map Prod.snd) := by
        rw [htxs, hnil, List.append_nil, ← heq, hrest, List.append_nil]
      refine ⟨o₁, _, rfl, h₁, hk₁, hpix₁, hpre₁, by omega, fun t ht => Or.inl ?_,
        fun tx hr => absurd hr (by simp), fun _ => ⟨hall, by omega⟩⟩
      rw [List.take_of_length_le (by omega), htxs, hnil, List.append_nil] at ht
      rwa [List.take_of_length_le hend']

/-- **`Peek` meets its spec**, the fuel it gives being enough. -/
theorem peek_spec {o : TxOrderer Addr Tx H} (h : Inv pending o) :
    ∃ o' r, o.peek hash = some (o', r) ∧ PeekSpec pending hash o o' r :=
  peekLoop_spec (o.sz + 1) o h (by omega)

variable (pending) in
/-- What `NextForPrefetch` does to the orderer: it keeps the invariant and `ix`, and only grows
`to.txs`. -/
structure PrefetchSpec (o o' : TxOrderer Addr Tx H) : Prop where
  inv : Inv pending o'
  keeps : Keeps o o'
  ix : o'.ix = o.ix
  grows : o.txs <+: o'.txs

theorem PrefetchSpec.refl {o : TxOrderer Addr Tx H} (h : Inv pending o) : PrefetchSpec pending o o :=
  ⟨h, Keeps.refl o, rfl, List.prefix_refl _⟩

theorem PrefetchSpec.trans {o o₁ o₂ : TxOrderer Addr Tx H} (h₁ : PrefetchSpec pending o o₁)
    (h₂ : PrefetchSpec pending o₁ o₂) : PrefetchSpec pending o o₂ :=
  ⟨h₂.inv, h₁.keeps.trans h₂.keeps, h₂.ix.trans h₁.ix, h₁.grows.trans h₂.grows⟩

/-- **`NextForPrefetch` meets its spec** on every orderer that keeps the invariant, given fuel
above `sz - pix`: each iteration that goes on reads below `sz` and moves `pix` past it. -/
theorem nextForPrefetchLoop_spec : ∀ (fuel : Nat) (o : TxOrderer Addr Tx H), Inv pending o →
    0 < fuel → o.sz < fuel + o.pix →
    ∃ r, nextForPrefetchLoop hash fuel o = some r ∧ PrefetchSpec pending o r.1
  | 0, _, _, hf, _ => absurd hf (Nat.lt_irrefl 0)
  | fuel + 1, o, h, _, hf => by
    by_cases hdone : o.done = true
    · exact ⟨(o, .nil), by simp [nextForPrefetchLoop, hdone], PrefetchSpec.refl h⟩
    by_cases hwait : o.ix < o.pix ∧ o.ix + 100 < o.pix
    · exact ⟨(o, .sleep), by simp [nextForPrefetchLoop, hdone, hwait], PrefetchSpec.refl h⟩
    -- pix is moved past ix, then the pull at the end of to.txs
    obtain ⟨o₀, ho₀, h₀, hs₀, hpix₀⟩ : ∃ o₀,
        (if o.pix ≤ o.ix then { o with pix := o.ix + 1 } else o) = o₀ ∧ Inv pending o₀ ∧
          PrefetchSpec pending o o₀ ∧ o.pix ≤ o₀.pix := by
      split_ifs with hle
      · exact ⟨_, rfl, h.with_pix _, ⟨h.with_pix _, ⟨rfl, rfl, rfl⟩, rfl, List.prefix_refl _⟩,
          by simp only; omega⟩
      · exact ⟨o, rfl, h, PrefetchSpec.refl h, le_rfl⟩
    obtain ⟨o₁, hpull, h₁, hk₁, hix₁, hpix₁, hpre₁, -, -⟩ := h₀.pullIf o₀.pix 1000
    have hs₁ : PrefetchSpec pending o o₁ := hs₀.trans ⟨h₁, hk₁, hix₁, hpre₁⟩
    rw [nextForPrefetchLoop, if_neg hdone, if_neg hwait]
    dsimp only
    rw [ho₀, Option.ite_bind, hpull, Option.bind_eq_bind, Option.bind_some]
    by_cases hlt : o₁.pix < o₁.txs.length
    · rw [dif_pos hlt]
      have h₂ : Inv pending { o₁ with pix := o₁.pix + 1 } := h₁.with_pix _
      have hs₂ : PrefetchSpec pending o { o₁ with pix := o₁.pix + 1 } :=
        hs₁.trans ⟨h₂, ⟨rfl, rfl, rfl⟩, rfl, List.prefix_refl _⟩
      by_cases hcom : (o₁.committedTxs (hash o₁.txs[o₁.pix])).isSome
      · -- a committed transaction is passed over: the loop goes on with pix above it
        rw [if_pos hcom]
        have hsz : o₁.sz = o.sz := hk₁.sz.trans hs₀.keeps.sz
        have hlen := h₁.length_le
        obtain ⟨r, hrun, hs⟩ := nextForPrefetchLoop_spec fuel _ h₂ (by omega)
          (by simp only; omega)
        exact ⟨r, hrun, hs₂.trans hs⟩
      · rw [if_neg hcom]
        exact ⟨_, rfl, hs₂⟩
    · rw [dif_neg hlt]
      exact ⟨_, rfl, hs₁⟩

/-- **`NextForPrefetch` meets its spec**, the fuel it gives being enough. -/
theorem nextForPrefetch_spec {o : TxOrderer Addr Tx H} (h : Inv pending o) :
    ∃ r, o.nextForPrefetch hash = some r ∧ PrefetchSpec pending o r.1 :=
  nextForPrefetchLoop_spec (o.sz + 1) o h (by omega) (by omega)

end Loops

/-! ## The orderer `NewTxOrderer` builds -/

section Build

theorem addAccount_list (o : TxOrderer Addr Tx H) (a : Addr) (i : List Tx) :
    (o.addAccount a i).list = (o.list.alloc ⟨a, i, 0, i.length⟩).append o.list.nodes.length := by
  show (o.list.alloc _).append ((o.list.alloc _).nodes.length - 1) = _
  rw [DLinked.length_alloc, Nat.add_sub_cancel]

variable (committedTxs : H → Option Tx)

/-- The orderer after the loop of `NewTxOrderer` went over `done`: node `j` holds the `j`-th
account's list with nothing pulled, linked in that order, and nothing else has changed. -/
structure Built (o : TxOrderer Addr Tx H) (done : List (Addr × List Tx)) : Prop where
  links : DLinked.Links o.list (List.range done.length)
  length_eq : o.list.nodes.length = done.length
  val_eq : ∀ j, DLinked.valOf o.list.nodes j =
    done[j]?.map fun q => (⟨q.1, q.2, 0, q.2.length⟩ : TxOrdererList Addr Tx)
  sz_eq : o.sz = (done.map fun q => q.2.length).sum
  txs_eq : o.txs = []
  ix_eq : o.ix = 0
  committed_eq : o.committedTxs = committedTxs
  done_eq : o.done = false

variable {committedTxs}

/-- **One pass of the loop**: the new list is linked at the tail. -/
theorem Built.addAccount {o : TxOrderer Addr Tx H} {done : List (Addr × List Tx)}
    (h : Built committedTxs o done) (a : Addr) (i : List Tx) :
    Built committedTxs (o.addAccount a i) (done ++ [(a, i)]) := by
  have hlinks := (h.links.alloc ⟨a, i, 0, i.length⟩).append (i := done.length)
    (by simp [h.length_eq]) (by simp)
  refine ⟨?_, by simp [addAccount_list, h.length_eq], fun j => ?_, ?_, h.txs_eq, h.ix_eq,
    h.committed_eq, h.done_eq⟩
  · rw [addAccount_list, h.length_eq, List.length_append, List.length_singleton, List.range_succ]
    exact hlinks
  · simp only [addAccount_list, DLinked.valOf_append, DLinked.valOf_alloc, h.val_eq,
      h.length_eq, List.getElem?_append]
    by_cases hj : j < done.length
    · simp [hj, show j ≠ done.length by omega]
    · by_cases hjn : j = done.length
      · subst hjn; simp
      · simp [hj, hjn, show j - done.length ≠ 0 by omega]
  · show o.sz + i.length = _
    simp [h.sz_eq]

theorem Built.foldl : ∀ (ps : List (Addr × List Tx)) {o : TxOrderer Addr Tx H}
    {done : List (Addr × List Tx)}, Built committedTxs o done →
    Built committedTxs (ps.foldl (fun (o : TxOrderer Addr Tx H) p => o.addAccount p.1 p.2) o)
      (done ++ ps)
  | [], _, _, h => by simpa using h
  | p :: ps, _, done, h => by
    have := Built.foldl ps (h.addAccount p.1 p.2)
    simpa using this

theorem built_newTxOrderer (pending : List (Addr × List Tx)) :
    Built committedTxs
      (pending.foldl (fun (o : TxOrderer Addr Tx H) p => o.addAccount p.1 p.2)
        { txs := [], list := ⟨[], none, none⟩, curr := none, committedTxs := committedTxs,
          done := false, ix := 0, pix := 0, sz := 0 }) pending := by
  have h₀ : Built committedTxs
      ({ txs := [], list := ⟨[], none, none⟩, curr := none, committedTxs := committedTxs,
          done := false, ix := 0, pix := 0, sz := 0 } : TxOrderer Addr Tx H) [] :=
    ⟨DLinked.Links.empty [], rfl, fun j => by simp [DLinked.valOf], rfl, rfl, rfl, rfl, rfl⟩
  simpa using Built.foldl pending h₀

/-- **The orderer `NewTxOrderer` builds keeps the invariant**: its queue is the pending lists
themselves, whose service is the round-robin merge. -/
theorem inv_newTxOrderer (pending : List (Addr × List Tx)) :
    Inv pending (newTxOrderer pending committedTxs) := by
  have hb : Built committedTxs _ pending := built_newTxOrderer (H := H) pending
  set o := pending.foldl (fun (o : TxOrderer Addr Tx H) p => o.addAccount p.1 p.2)
    { txs := [], list := ⟨[], none, none⟩, curr := none, committedTxs := committedTxs,
      done := false, ix := 0, pix := 0, sz := 0 } with ho
  have hrepr : Repr { o with curr := o.list.head } (List.range pending.length) 0 :=
    ⟨hb.links, hb.links.head_eq, Or.inl rfl, fun j hj => by
      have hj' : j < pending.length := List.mem_range.mp hj
      exact ⟨_, by rw [hb.val_eq, List.getElem?_eq_getElem hj']; rfl, rfl, Nat.zero_le _⟩⟩
  -- the queue at the start is the list of the pending lists
  have hqueue : TxOrderer.queue { o with curr := o.list.head } (List.range pending.length) 0 =
      pending.map Prod.snd := by
    refine List.ext_getElem (by simp [queue]) fun j h₁ h₂ => ?_
    have hj : j < pending.length := by simpa [queue] using h₁
    simp [queue, remaining, hb.val_eq, List.getElem?_eq_getElem hj]
  have hnew : newTxOrderer pending committedTxs = { o with curr := o.list.head } := rfl
  rw [hnew]
  refine ⟨⟨_, 0, hrepr, ?_⟩, ?_, by simp [hb.ix_eq]⟩
  · show o.txs ++ _ = _
    rw [hqueue, hb.txs_eq, List.nil_append, serve_eq_roundRobin]
  · show o.sz = _
    rw [hb.sz_eq, length_roundRobin, List.map_map]
    rfl

end Build

/-! ## The other methods -/

section Methods

variable {pending : List (Addr × List Tx)} {o : TxOrderer Addr Tx H}

theorem Inv.close (h : Inv pending o) : Inv pending o.close := by
  obtain ⟨order, p, hr, heq⟩ := h.repr
  exact ⟨⟨order, p, hr.of_eq rfl rfl, heq⟩, h.sz_eq, h.ix_le⟩

theorem Inv.markCommitted [DecidableEq H] (hash : Tx → H) (h : Inv pending o) (tx : Tx) :
    Inv pending (o.markCommitted hash tx) := by
  obtain ⟨order, p, hr, heq⟩ := h.repr
  exact ⟨⟨order, p, hr.of_eq rfl rfl, heq⟩, h.sz_eq, h.ix_le⟩

theorem pop_eq_shift (o : TxOrderer Addr Tx H) : o.pop = o.shift := rfl

theorem newTxOrderer_start (pending : List (Addr × List Tx)) (committedTxs : H → Option Tx) :
    (newTxOrderer pending committedTxs).txs = [] ∧ (newTxOrderer pending committedTxs).ix = 0 ∧
      (newTxOrderer pending committedTxs).committedTxs = committedTxs := by
  have hb : Built committedTxs _ pending := built_newTxOrderer (H := H) pending
  exact ⟨hb.txs_eq, hb.ix_eq, hb.committed_eq⟩

end Methods

end TxOrderer

/-! ## The invariant of the miner loop -/

namespace World

variable {Addr Tx H : Type}

/-- How far the miner loop is in `to.txs`: past `ix`, past the transaction at `ix` too once
`Peek` returned it, and past everything pulled after a stop. -/
def past (w : World Addr Tx H) : Nat :=
  match w.pc with
  | .peeked _ => w.orderer.ix + 1
  | .marked => w.orderer.ix + 1
  | .stopped => w.orderer.txs.length
  | _ => w.orderer.ix

/-- How far `to.txs` is known to be committed: below `ix`, at `ix` too once it is marked;
after a stop nothing is claimed. -/
def settled (w : World Addr Tx H) : Nat :=
  match w.pc with
  | .marked => w.orderer.ix + 1
  | .stopped => 0
  | _ => w.orderer.ix

/-- The handed-out transactions known to be marked committed: all but the one just peeked;
after a stop none is claimed. -/
def markedTxs (w : World Addr Tx H) : List Tx :=
  match w.pc with
  | .peeked _ => w.returned.dropLast
  | .stopped => []
  | _ => w.returned

end World

variable (pending : List (Addr × List Tx)) (committedTxs : H → Option Tx)

/-- The invariant of a run from `NewTxOrderer(pending, committedTxs)`. The orderer keeps its
own (`TxOrderer.Inv`); the handed-out transactions are the ones `Peek` found at `ix`, in the
order of `to.txs`; what the loop has passed is committed, and the committed map holds only
the start's entries and handed-out transactions. -/
structure WorldInv (w : World Addr Tx H) : Prop where
  orderer : TxOrderer.Inv pending w.orderer
  returned_sublist : w.returned.Sublist (w.orderer.txs.take w.past)
  past_le : w.past ≤ w.orderer.txs.length
  peeked : ∀ tx, w.pc = .peeked tx →
    w.orderer.txs[w.orderer.ix]? = some tx ∧ w.returned.getLast? = some tx
  settled : ∀ t ∈ w.orderer.txs.take w.settled, (w.orderer.committedTxs (hash t)).isSome
  marked : ∀ t ∈ w.markedTxs, (w.orderer.committedTxs (hash t)).isSome
  of_initial : ∀ k, (committedTxs k).isSome → (w.orderer.committedTxs k).isSome
  committed_only : ∀ k, (w.orderer.committedTxs k).isSome →
    (committedTxs k).isSome ∨ ∃ t ∈ w.returned, hash t = k
  nodup : (w.returned.map hash).Nodup
  fresh : ∀ t ∈ w.returned, committedTxs (hash t) = none
  exhausted : w.pc = .exhausted →
    ∀ t ∈ roundRobin (pending.map Prod.snd), (w.orderer.committedTxs (hash t)).isSome
  closed : w.pc = .exhausted ∨ w.pc = .stopped → w.orderer.done = true

variable {pending committedTxs}

theorem getElem?_of_isPrefix {l l' : List Tx} (h : l <+: l') {i : Nat} (hi : i < l.length) :
    l'[i]? = l[i]? := by
  obtain ⟨t, rfl⟩ := h
  exact List.getElem?_append_left hi

theorem take_sublist_take_of_isPrefix {l l' : List Tx} (h : l <+: l') {a b : Nat} (hab : a ≤ b)
    (ha : a ≤ l.length) : (l.take a).Sublist (l'.take b) := by
  rw [← TxOrderer.take_of_prefix h ha]
  exact (List.take_prefix_take_left hab).sublist

omit [DecidableEq H] in
/-- The start keeps the invariant. -/
theorem worldInv_init : WorldInv hash pending committedTxs (World.init pending committedTxs) where
  orderer := TxOrderer.inv_newTxOrderer pending
  returned_sublist := List.nil_sublist _
  past_le := by
    simp [World.past, World.init, (TxOrderer.newTxOrderer_start pending committedTxs).2.1]
  peeked := fun _ h => by cases h
  settled := fun t ht => by
    simp [World.settled, World.init, (TxOrderer.newTxOrderer_start pending committedTxs).2.1] at ht
  marked := fun t ht => by simp [World.markedTxs, World.init] at ht
  of_initial := fun _ hk => by
    simpa [World.init, (TxOrderer.newTxOrderer_start pending committedTxs).2.2] using hk
  committed_only := fun _ hk => Or.inl (by
    simpa [World.init, (TxOrderer.newTxOrderer_start pending committedTxs).2.2] using hk)
  nodup := List.nodup_nil
  fresh := fun _ ht => by simp [World.init] at ht
  exhausted := fun h => by cases h
  closed := fun h => by rcases h with h | h <;> cases h

namespace WorldInv

variable {hash} {w : World Addr Tx H}

/-- **A prefetch call keeps the invariant**: it grows `to.txs` and moves nothing the miner
loop reads. -/
theorem prefetch (h : WorldInv hash pending committedTxs w) :
    ∃ w', w.step hash .prefetch = some w' ∧ WorldInv hash pending committedTxs w' := by
  obtain ⟨r, hr, hs⟩ : ∃ r, w.orderer.nextForPrefetch hash = some r ∧
      TxOrderer.PrefetchSpec pending w.orderer r.1 := TxOrderer.nextForPrefetch_spec h.orderer
  refine ⟨{ w with orderer := r.1 }, by simp [World.step, hr], ?_⟩
  have hpast : (w.orderer.txs.take w.past).Sublist
      (r.1.txs.take (World.past { w with orderer := r.1 })) ∧
      World.past { w with orderer := r.1 } ≤ r.1.txs.length := by
    have hlen := hs.grows.length_le
    have hle := h.past_le
    cases hpc : w.pc <;> simp only [World.past, hpc, hs.ix] at hle ⊢ <;>
      first
      | exact ⟨take_sublist_take_of_isPrefix hs.grows le_rfl hle, by omega⟩
      | exact ⟨(List.take_sublist _ _).trans (hs.grows.sublist.trans (by simp)), le_rfl⟩
  have hsettled : World.settled { w with orderer := r.1 } = w.settled := by
    cases hpc : w.pc <;> simp [World.settled, hpc, hs.ix]
  have hsettled_le : w.settled ≤ w.orderer.txs.length := by
    have := h.past_le
    cases hpc : w.pc <;> simp only [World.settled, World.past, hpc] at this ⊢ <;> omega
  refine ⟨hs.inv, h.returned_sublist.trans hpast.1, hpast.2, fun tx hpc => ?_, fun t ht => ?_,
    fun t ht => ?_, fun k hk => ?_, fun k hk => ?_, h.nodup, h.fresh, fun hpc t ht => ?_,
    fun hpc => ?_⟩
  · obtain ⟨hget, hlast⟩ := h.peeked tx hpc
    have hlt : w.orderer.ix < w.orderer.txs.length := (List.getElem?_eq_some_iff.mp hget).1
    exact ⟨by rw [hs.ix, getElem?_of_isPrefix hs.grows hlt, hget], hlast⟩
  · rw [hsettled, TxOrderer.take_of_prefix hs.grows hsettled_le] at ht
    rw [hs.keeps.committedTxs]
    exact h.settled t ht
  · rw [hs.keeps.committedTxs]
    exact h.marked t ht
  · rw [hs.keeps.committedTxs]
    exact h.of_initial k hk
  · rw [hs.keeps.committedTxs] at hk
    exact h.committed_only k hk
  · rw [hs.keeps.committedTxs]
    exact h.exhausted hpc t ht
  · rw [hs.keeps.done]
    exact h.closed hpc

/-- **A stop keeps the invariant**: `Close` sets `done`, and after it nothing more is claimed
than what the loop handed out. -/
theorem stop (h : WorldInv hash pending committedTxs w) :
    ∃ w', w.step hash .stop = some w' ∧ WorldInv hash pending committedTxs w' := by
  have hstop : ∀ w' : World Addr Tx H, w' = { w with orderer := w.orderer.close, pc := .stopped } →
      WorldInv hash pending committedTxs w' := by
    rintro w' rfl
    exact {
      orderer := h.orderer.close
      returned_sublist := by
        simpa [World.past, TxOrderer.close] using h.returned_sublist.trans (List.take_sublist _ _)
      past_le := by simp [World.past, TxOrderer.close]
      peeked := fun _ hpc => by cases hpc
      settled := fun t ht => by simp [World.settled] at ht
      marked := fun t ht => by simp [World.markedTxs] at ht
      of_initial := h.of_initial
      committed_only := h.committed_only
      nodup := h.nodup
      fresh := h.fresh
      exhausted := fun hpc => by cases hpc
      closed := fun _ => rfl }
  cases hpc : w.pc with
  | loop => exact ⟨_, by simp only [World.step, hpc], hstop _ rfl⟩
  | peeked tx => exact ⟨_, by simp only [World.step, hpc], hstop _ rfl⟩
  | marked => exact ⟨w, by simp [World.step, hpc], h⟩
  | exhausted => exact ⟨w, by simp [World.step, hpc], h⟩
  | stopped => exact ⟨w, by simp [World.step, hpc], h⟩

/-- **`MarkCommitted` keeps the invariant**: the transaction just handed out, which stands at
`ix`, becomes committed. -/
theorem mark (h : WorldInv hash pending committedTxs w) :
    ∃ w', w.step hash .mark = some w' ∧ WorldInv hash pending committedTxs w' := by
  cases hpc : w.pc with
  | peeked tx =>
    refine ⟨{ w with orderer := w.orderer.markCommitted hash tx, pc := .marked },
      by simp [World.step, hpc], ?_⟩
    obtain ⟨hget, hlast⟩ := h.peeked tx hpc
    have hupd : ∀ k, (w.orderer.committedTxs k).isSome →
        ((w.orderer.markCommitted hash tx).committedTxs k).isSome := by
      intro k hk
      by_cases hkt : k = hash tx <;> simp [TxOrderer.markCommitted, hkt, hk]
    have htx : ((w.orderer.markCommitted hash tx).committedTxs (hash tx)).isSome := by
      simp [TxOrderer.markCommitted]
    have hpast : World.past { w with orderer := w.orderer.markCommitted hash tx, pc := .marked } =
        w.past := by simp [World.past, hpc, TxOrderer.markCommitted]
    refine {
      orderer := h.orderer.markCommitted hash tx
      returned_sublist := hpast ▸ h.returned_sublist
      past_le := hpast ▸ h.past_le
      peeked := fun _ hpc' => by cases hpc'
      settled := fun t ht => ?_
      marked := fun t ht => ?_
      of_initial := fun k hk => hupd k (h.of_initial k hk)
      committed_only := fun k hk => ?_
      nodup := h.nodup
      fresh := h.fresh
      exhausted := fun hpc' => by cases hpc'
      closed := fun hpc' => by rcases hpc' with hpc' | hpc' <;> cases hpc' }
    · -- the loop has passed the transaction at ix, which is marked now
      have hlt : w.orderer.ix < w.orderer.txs.length := (List.getElem?_eq_some_iff.mp hget).1
      simp only [World.settled, TxOrderer.markCommitted] at ht
      rw [List.take_add_one, hget, Option.toList_some] at ht
      rcases List.mem_append.mp ht with ht | ht
      · have : t ∈ w.orderer.txs.take w.settled := by simpa [World.settled, hpc] using ht
        exact hupd _ (h.settled t this)
      · rw [List.mem_singleton.mp ht]; exact htx
    · simp only [World.markedTxs] at ht
      rw [← List.dropLast_append_getLast? tx hlast] at ht
      rcases List.mem_append.mp ht with ht | ht
      · exact hupd _ (h.marked t (by simpa [World.markedTxs, hpc] using ht))
      · rw [List.mem_singleton.mp ht]; exact htx
    · by_cases hkt : k = hash tx
      · exact Or.inr ⟨tx, List.mem_of_getLast? hlast, hkt.symm⟩
      · have hk' : (w.orderer.committedTxs k).isSome := by
          simpa [TxOrderer.markCommitted, Function.update_apply, hkt] using hk
        exact h.committed_only k hk'
  | loop => exact ⟨w, by simp [World.step, hpc], h⟩
  | marked => exact ⟨w, by simp [World.step, hpc], h⟩
  | exhausted => exact ⟨w, by simp [World.step, hpc], h⟩
  | stopped => exact ⟨w, by simp [World.step, hpc], h⟩

omit [DecidableEq H] in
/-- Moving past the marked transaction keeps the invariant; `Shift` and `Pop` both do it. -/
theorem advance (h : WorldInv hash pending committedTxs w) (hpc : w.pc = .marked) :
    WorldInv hash pending committedTxs { w with orderer := w.orderer.shift, pc := .loop } := by
  have hle : w.orderer.ix + 1 ≤ w.orderer.txs.length := by
    simpa [World.past, hpc] using h.past_le
  have hpast : World.past { w with orderer := w.orderer.shift, pc := .loop } = w.past := by
    simp [World.past, hpc, TxOrderer.shift]
  have hsettled : World.settled { w with orderer := w.orderer.shift, pc := .loop } =
      w.settled := by simp [World.settled, hpc, TxOrderer.shift]
  have hmarked : World.markedTxs { w with orderer := w.orderer.shift, pc := .loop } =
      w.markedTxs := by simp [World.markedTxs, hpc]
  exact {
    orderer := h.orderer.with_ix _ hle
    returned_sublist := hpast ▸ h.returned_sublist
    past_le := hpast ▸ h.past_le
    peeked := fun _ hpc' => by cases hpc'
    settled := hsettled ▸ h.settled
    marked := hmarked ▸ h.marked
    of_initial := h.of_initial
    committed_only := h.committed_only
    nodup := h.nodup
    fresh := h.fresh
    exhausted := fun hpc' => by cases hpc'
    closed := fun hpc' => by rcases hpc' with hpc' | hpc' <;> cases hpc' }

theorem shift (h : WorldInv hash pending committedTxs w) :
    ∃ w', w.step hash .shift = some w' ∧ WorldInv hash pending committedTxs w' := by
  cases hpc : w.pc with
  | marked =>
    exact ⟨{ w with orderer := w.orderer.shift, pc := .loop }, by simp [World.step, hpc],
      h.advance hpc⟩
  | loop => exact ⟨w, by simp [World.step, hpc], h⟩
  | peeked tx => exact ⟨w, by simp [World.step, hpc], h⟩
  | exhausted => exact ⟨w, by simp [World.step, hpc], h⟩
  | stopped => exact ⟨w, by simp [World.step, hpc], h⟩

theorem pop (h : WorldInv hash pending committedTxs w) :
    ∃ w', w.step hash .pop = some w' ∧ WorldInv hash pending committedTxs w' := by
  cases hpc : w.pc with
  | marked =>
    refine ⟨{ w with orderer := w.orderer.pop, pc := .loop }, by simp [World.step, hpc], ?_⟩
    rw [TxOrderer.pop_eq_shift]
    exact h.advance hpc
  | loop => exact ⟨w, by simp [World.step, hpc], h⟩
  | peeked tx => exact ⟨w, by simp [World.step, hpc], h⟩
  | exhausted => exact ⟨w, by simp [World.step, hpc], h⟩
  | stopped => exact ⟨w, by simp [World.step, hpc], h⟩

/-- **`Peek` keeps the invariant**: the transaction it returns is the first one past `ix` that
is not committed, so it is new by hash and not in the start's map; it returns nil only once the
whole merge is pulled and passed, and so committed. -/
theorem peek (h : WorldInv hash pending committedTxs w) :
    ∃ w', w.step hash .peek = some w' ∧ WorldInv hash pending committedTxs w' := by
  cases hpc : w.pc with
  | loop =>
    obtain ⟨o', r, hrun, hs⟩ : ∃ o' r, w.orderer.peek hash = some (o', r) ∧
        TxOrderer.PeekSpec pending hash w.orderer o' r := TxOrderer.peek_spec h.orderer
    -- what the loop passed is committed, before `Peek` and after it
    have hpassed : ∀ t ∈ o'.txs.take o'.ix, (o'.committedTxs (hash t)).isSome := by
      intro t ht
      rw [hs.keeps.committedTxs]
      rcases hs.skipped t ht with ht | ht
      · exact h.settled t (by simpa [World.settled, hpc] using ht)
      · exact ht
    have hsub : w.returned.Sublist (o'.txs.take o'.ix) := by
      have hret := h.returned_sublist
      simp only [World.past, hpc] at hret
      exact hret.trans (take_sublist_take_of_isPrefix hs.grows hs.ix_le h.orderer.ix_le)
    have hmarked : ∀ t ∈ w.returned, (o'.committedTxs (hash t)).isSome := by
      intro t ht
      rw [hs.keeps.committedTxs]
      exact h.marked t (by simpa [World.markedTxs, hpc] using ht)
    cases r with
    | none =>
      -- nil: the loop breaks and closes the orderer
      obtain ⟨hall, hlen⟩ := hs.exhausted rfl
      refine ⟨{ w with orderer := o'.close, pc := .exhausted }, by simp [World.step, hpc, hrun], ?_⟩
      exact {
        orderer := hs.inv.close
        returned_sublist := by simpa [World.past, TxOrderer.close] using hsub
        past_le := by simpa [World.past, TxOrderer.close] using hs.inv.ix_le
        peeked := fun _ hpc' => by cases hpc'
        settled := fun t ht => hpassed t (by simpa [World.settled, TxOrderer.close] using ht)
        marked := fun t ht => hmarked t (by simpa [World.markedTxs] using ht)
        of_initial := fun k hk => by
          show (o'.committedTxs k).isSome
          rw [hs.keeps.committedTxs]
          exact h.of_initial k hk
        committed_only := fun k hk => by
          change (o'.committedTxs k).isSome at hk
          rw [hs.keeps.committedTxs] at hk
          exact h.committed_only k hk
        nodup := h.nodup
        fresh := h.fresh
        exhausted := fun _ t ht => hpassed t (by rw [List.take_of_length_le hlen, hall]; exact ht)
        closed := fun _ => rfl }
    | some tx =>
      -- a transaction: it is handed out
      obtain ⟨hget, hnone⟩ := hs.found tx rfl
      have hnone' : o'.committedTxs (hash tx) = none := hs.keeps.committedTxs ▸ hnone
      have hlt : o'.ix < o'.txs.length := (List.getElem?_eq_some_iff.mp hget).1
      refine ⟨{ orderer := o', pc := .peeked tx, returned := w.returned ++ [tx] },
        by simp [World.step, hpc, hrun], ?_⟩
      exact {
        orderer := hs.inv
        returned_sublist := by
          simp only [World.past]
          rw [List.take_add_one, hget, Option.toList_some]
          exact hsub.append (List.Sublist.refl _)
        past_le := by simp only [World.past]; omega
        peeked := fun t hpc' => by
          cases hpc'
          exact ⟨hget, List.getLast?_concat⟩
        settled := fun t ht => hpassed t (by simpa [World.settled] using ht)
        marked := fun t ht => hmarked t (by simpa [World.markedTxs] using ht)
        of_initial := fun k hk => by
          rw [hs.keeps.committedTxs]
          exact h.of_initial k hk
        committed_only := fun k hk => by
          rw [hs.keeps.committedTxs] at hk
          rcases h.committed_only k hk with hk | ⟨t, ht, rfl⟩
          · exact Or.inl hk
          · exact Or.inr ⟨t, List.mem_append_left _ ht, rfl⟩
        nodup := by
          -- every transaction handed out before is committed, and this one is not
          rw [List.map_append, List.map_singleton, List.nodup_append]
          refine ⟨h.nodup, List.nodup_singleton _, fun a ha b hb hab => ?_⟩
          obtain ⟨t, ht, rfl⟩ := List.mem_map.mp ha
          rw [List.mem_singleton.mp hb] at hab
          have hcom := hmarked t ht
          rw [hab, hnone'] at hcom
          exact Bool.noConfusion hcom
        fresh := fun t ht => by
          rcases List.mem_append.mp ht with ht | ht
          · exact h.fresh t ht
          · rw [List.mem_singleton.mp ht]
            cases hC : committedTxs (hash tx) with
            | none => rfl
            | some _ =>
              have hcom := h.of_initial (hash tx) (by simp [hC])
              rw [hnone] at hcom
              exact Bool.noConfusion hcom
        exhausted := fun hpc' => by cases hpc'
        closed := fun hpc' => by rcases hpc' with hpc' | hpc' <;> cases hpc' }
  | peeked tx => exact ⟨w, by simp [World.step, hpc], h⟩
  | marked => exact ⟨w, by simp [World.step, hpc], h⟩
  | exhausted => exact ⟨w, by simp [World.step, hpc], h⟩
  | stopped => exact ⟨w, by simp [World.step, hpc], h⟩

/-- **Every step keeps the invariant**, one lemma per event. -/
theorem step (h : WorldInv hash pending committedTxs w) (e : Event) :
    ∃ w', w.step hash e = some w' ∧ WorldInv hash pending committedTxs w' := by
  cases e with
  | prefetch => exact h.prefetch
  | stop => exact h.stop
  | peek => exact h.peek
  | mark => exact h.mark
  | shift => exact h.shift
  | pop => exact h.pop

end WorldInv

/-- **Every run keeps the invariant**: whatever the interleaving of the miner loop and the
prefetch calls, no step panics or runs out of fuel, and the invariant holds at the end. -/
theorem run_worldInv (pending : List (Addr × List Tx)) (committedTxs : H → Option Tx)
    (events : List Event) :
    ∃ w, run hash pending committedTxs events = some w ∧ WorldInv hash pending committedTxs w := by
  have hpres : (machine hash).Preserves
      (fun o => ∃ w, o = some w ∧ WorldInv hash pending committedTxs w) := by
    rintro _ e ⟨w, rfl, hw⟩
    obtain ⟨w', hstep, hw'⟩ := hw.step e
    exact ⟨w', by simp [machine, hstep], hw'⟩
  exact (machine hash).run_inv hpres _ events ⟨_, rfl, worldInv_init hash⟩

/-! ## What every run guarantees -/

omit [DecidableEq H] in
theorem WorldInv.returned_sublist_merge {w : World Addr Tx H}
    (h : WorldInv hash pending committedTxs w) :
    w.returned.Sublist (roundRobin (pending.map Prod.snd)) :=
  h.returned_sublist.trans ((List.take_sublist _ _).trans h.orderer.pulled_isPrefix.sublist)

theorem flatMap_snd (pending : List (Addr × List Tx)) :
    pending.flatMap Prod.snd = (pending.map Prod.snd).flatten := by
  simp [List.flatMap]

/-- **The orderer hands out the round-robin merge, in chunks of any size.** After any run of the
miner loop interleaved with prefetch calls, and any further sequence of `pull(k)`, the
transactions pulled into `to.txs` are a prefix of the merge of the pending lists by rounds,
in the order of the linked list. -/
theorem pulled_isPrefix_roundRobin (pending : List (Addr × List Tx))
    (committedTxs : H → Option Tx) (events : List Event) (ks : List Nat) :
    ∃ w, run hash pending committedTxs events = some w ∧
      ∃ o, ks.foldlM (fun o k => o.pull k) w.orderer = some o ∧
        o.txs <+: roundRobin (pending.map Prod.snd) := by
  obtain ⟨w, hrun, hw⟩ := run_worldInv hash pending committedTxs events
  obtain ⟨o, hfold, ho⟩ := Option.foldlM_total (TxOrderer.Inv pending)
    (fun k o ho => by
      obtain ⟨o', hpull, ho', -⟩ := ho.pull k
      exact ⟨o', hpull, ho'⟩) ks hw.orderer
  exact ⟨w, hrun, o, hfold, ho.pulled_isPrefix⟩

/-- **What the miner loop is handed is new.** In every run no step panics, and the transactions
`Peek` returned are pairwise distinct by hash, none has its hash in the committed map the
orderer started with, they come in the order of the round-robin merge, and the committed map
holds only the start's entries and the hashes of handed-out transactions. -/
theorem handedOut_distinct_uncommitted (pending : List (Addr × List Tx))
    (committedTxs : H → Option Tx) (events : List Event) :
    ∃ w, run hash pending committedTxs events = some w ∧ (w.returned.map hash).Nodup ∧
      (∀ t ∈ w.returned, committedTxs (hash t) = none) ∧
      w.returned.Sublist (roundRobin (pending.map Prod.snd)) ∧
      ∀ k, (w.orderer.committedTxs k).isSome →
        (committedTxs k).isSome ∨ ∃ t ∈ w.returned, hash t = k := by
  obtain ⟨w, hrun, hw⟩ := run_worldInv hash pending committedTxs events
  exact ⟨w, hrun, hw.nodup, hw.fresh, hw.returned_sublist_merge, hw.committed_only⟩

/-- **Each account's transactions come out in its order.** When every list of the pending map
holds transactions of its own sender, the transactions of one sender that `Peek` returns are
a sublist of that sender's list, in every run. -/
theorem handedOut_account_order [DecidableEq Addr] (sender : Tx → Addr)
    (pending : List (Addr × List Tx)) (hkeyed : Keyed sender pending)
    (committedTxs : H → Option Tx) (events : List Event) :
    ∃ w, run hash pending committedTxs events = some w ∧
      ∀ a L, (a, L) ∈ pending → (w.returned.filter (sender · = a)).Sublist L := by
  obtain ⟨w, hrun, hw⟩ := run_worldInv hash pending committedTxs events
  refine ⟨w, hrun, fun a L haL => ?_⟩
  have := hw.returned_sublist_merge.filter (sender · = a)
  rwa [filter_roundRobin hkeyed haL] at this

theorem handedOut_account_order_twoSenders :
    Keyed (· / 10) [((1 : Nat), [(10 : Nat), 11, 12]), (2, [20, 21, 22])] ∧
      ∃ w, run (id : Nat → Nat) [((1 : Nat), [(10 : Nat), 11, 12]), (2, [20, 21, 22])]
          (fun _ => none) [.prefetch, .peek, .mark, .shift, .peek, .mark, .pop, .peek] = some w ∧
        ∀ a L, (a, L) ∈ [((1 : Nat), [(10 : Nat), 11, 12]), (2, [20, 21, 22])] →
          (w.returned.filter (· / 10 = a)).Sublist L := by
  have hk : Keyed (· / 10) [((1 : Nat), [(10 : Nat), 11, 12]), (2, [20, 21, 22])] :=
    ⟨by decide, by decide⟩
  exact ⟨hk, handedOut_account_order id (· / 10) _ hk _ _⟩

/-- **Fairness between two consecutive transactions of an account.** When the pending lists are
keyed by sender and no transaction is pending twice, then in every run, between the `r`-th and
the `r+1`-th transaction of one account's list, where `Peek` returns both, it returns at most
one transaction of every sender. -/
theorem handedOut_between_adjacent [DecidableEq Addr] (sender : Tx → Addr)
    (pending : List (Addr × List Tx)) (hkeyed : Keyed sender pending)
    (hnodup : (pending.flatMap Prod.snd).Nodup) (committedTxs : H → Option Tx)
    (events : List Event) :
    ∃ w, run hash pending committedTxs events = some w ∧
      ∀ (i r : Nat) (L : List Tx) (x y : Tx), (pending.map Prod.snd)[i]? = some L →
        L[r]? = some x → L[r + 1]? = some y → ∀ pre mid post : List Tx,
          w.returned = pre ++ x :: mid ++ y :: post →
            ∀ b, (mid.filter (sender · = b)).length ≤ 1 := by
  obtain ⟨w, hrun, hw⟩ := run_worldInv hash pending committedTxs events
  refine ⟨w, hrun, fun i r L x y hL hx hy pre mid post hret b => ?_⟩
  obtain ⟨hr, rfl⟩ := List.getElem?_eq_some_iff.mp hy
  obtain ⟨_, rfl⟩ := List.getElem?_eq_some_iff.mp hx
  have hmerge : (roundRobin (pending.map Prod.snd)).Nodup :=
    (roundRobin_perm _).nodup_iff.mpr (flatMap_snd pending ▸ hnodup)
  obtain ⟨P, M, Q, hsplit, hfair⟩ := roundRobin_between hkeyed hL hr
  have hmid : mid.Sublist M := Sublist.middle hw.returned_sublist_merge hmerge hret hsplit
  calc (mid.filter (sender · = b)).length
      ≤ (M.filter (sender · = b)).length := (hmid.filter _).length_le
    _ ≤ 1 := hfair b

theorem handedOut_between_adjacent_twoSenders :
    Keyed (· / 10) [((1 : Nat), [(10 : Nat), 11, 12]), (2, [20, 21, 22])] ∧
      ([((1 : Nat), [(10 : Nat), 11, 12]), (2, [20, 21, 22])].flatMap Prod.snd).Nodup ∧
      ∃ w, run (id : Nat → Nat) [((1 : Nat), [(10 : Nat), 11, 12]), (2, [20, 21, 22])]
          (fun _ => none) [.peek, .mark, .shift, .peek, .mark, .shift, .peek] = some w ∧
        ∀ (i r : Nat) (L : List Nat) (x y : Nat),
          ([((1 : Nat), [(10 : Nat), 11, 12]), (2, [20, 21, 22])].map Prod.snd)[i]? = some L →
          L[r]? = some x → L[r + 1]? = some y → ∀ pre mid post : List Nat,
            w.returned = pre ++ x :: mid ++ y :: post →
              ∀ b, (mid.filter (· / 10 = b)).length ≤ 1 := by
  have hk : Keyed (· / 10) [((1 : Nat), [(10 : Nat), 11, 12]), (2, [20, 21, 22])] :=
    ⟨by decide, by decide⟩
  have hnd : ([((1 : Nat), [(10 : Nat), 11, 12]), (2, [20, 21, 22])].flatMap Prod.snd).Nodup := by
    decide
  exact ⟨hk, hnd, handedOut_between_adjacent id (· / 10) _ hk hnd _ _⟩

/-- **`Peek` returns nil only when every pending transaction was dealt with.** In every run, once
the miner loop has broken on a nil `Peek`, every pending transaction has its hash in the start's
committed map or is the hash of a transaction `Peek` returned. -/
theorem peek_nil_all_handled (pending : List (Addr × List Tx))
    (committedTxs : H → Option Tx) (events : List Event) :
    ∃ w, run hash pending committedTxs events = some w ∧
      (w.pc = .exhausted → ∀ t ∈ pending.flatMap Prod.snd,
        (committedTxs (hash t)).isSome ∨ ∃ t' ∈ w.returned, hash t' = hash t) := by
  obtain ⟨w, hrun, hw⟩ := run_worldInv hash pending committedTxs events
  refine ⟨w, hrun, fun hpc t ht => hw.committed_only _ (hw.exhausted hpc t ?_)⟩
  rw [(roundRobin_perm _).mem_iff, ← flatMap_snd]
  exact ht

end GoMetadium.Miner
