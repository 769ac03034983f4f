import Mathlib

set_option autoImplicit false

/-! # Batched transaction broadcast (`common/batch/batch.go`, `eth/peer.go`)

`peer.broadcast` hands every transaction queued for a peer to a `Batch` (`b.Put`) and
stops it (`b.Stop`) when the broadcast loop ends. `Batch.Run` collects the items it receives
in a buffer `data` and calls its callback `f(data, count)` on the buffer when a rule fires:

* an item arrives while the buffer was not empty before and now holds `batchCount` items or
  more: the buffer is sent in chunks of `batchCount`;
* the timer expires, the counter of pending puts reads zero, and either the buffer did not
  grow for `toInterval` or `timeout` has passed: the whole buffer is sent;
* the end of data (the `nil` that `Stop` puts): the rest is sent in chunks.

The callback of `peer.broadcast` ignores its `count` argument and sends the whole slice it
is given with `SendTransactions`, so what reaches the peer is `data` for every call.

Times and the racy counter `b.count` are inputs here: a timer expiry carries the value read
for `last` and the time passed since the last iteration. A run is the list of what `Run`
receives before the `nil` of `Stop`, items in the order they were put (the channel is
FIFO and the broadcast loop is its only writer) with timer expiries anywhere between them;
the model allows an expiry at every point, also where Go's timer is stopped, since a stopped
Go timer can still have an expiry waiting in its channel.
-/

namespace GoMetadium.Common

/-- `Batch`, with the configuration `NewBatch` takes. The callback is not a field: the
calls are the output of the model. A zero `batchCount` makes `Run` loop forever on its first
chunk, so it is excluded. -/
structure Batch where
  toInterval : Nat
  timeout : Nat
  batchCount : Nat
  batchCount_pos : 0 < batchCount

/-- What `Run`'s `select` receives before the end of data. -/
inductive Arrival (α : Type) where
  /-- `d := <-b.ch` with `d != nil`. -/
  | item (d : α)
  /-- `<-timer.C`; `last` is the value read for `b.count == 0`, `elapsed` is
  `time.Since(lt)`. -/
  | timer (last : Bool) (elapsed : Nat)
  deriving DecidableEq, Repr

/-- One call `b.f(data, count)`. -/
structure Call (α : Type) where
  data : List α
  count : Nat
  deriving DecidableEq, Repr

/-- The loop variables of `Run` that the decisions read: the buffer and the last count
`ln`. The last time `lt` is folded into `Arrival.timer`. -/
structure RunState (α : Type) where
  data : List α
  ln : Nat
  deriving DecidableEq, Repr

variable {α : Type}

/-- The items of an arrival list, in order: what was put. -/
def items : List (Arrival α) → List α
  | [] => []
  | .item d :: as => d :: items as
  | .timer _ _ :: as => items as

namespace Batch

variable (b : Batch)

/-- The chunk loop of a fire with a full buffer: `f(data, batchCount)` and
`data = data[batchCount:]` while `len(data) >= batchCount`. Returns the calls and what is
left of the buffer. -/
def chunkLoop (data : List α) : List (Call α) × List α :=
  if b.batchCount ≤ data.length then
    let (calls, rest) := chunkLoop (data.drop b.batchCount)
    (⟨data, b.batchCount⟩ :: calls, rest)
  else ([], data)
termination_by data.length
decreasing_by simp only [List.length_drop]; have := b.batchCount_pos; omega

/-- The drain after the end of data: `l := min(len(data), batchCount)`, `f(data, l)`,
`data = data[l:]` while `len(data) > 0`. -/
def flush (data : List α) : List (Call α) :=
  if 0 < data.length then
    ⟨data, min data.length b.batchCount⟩ :: flush (data.drop (min data.length b.batchCount))
  else []
termination_by data.length
decreasing_by simp only [List.length_drop]; have := b.batchCount_pos; omega

/-- Whether one iteration fires, after the buffer became `data`: on an item, when the buffer
was not empty before (`ln != 0`) and is now full; on a timer expiry, when `last` holds and
the buffer did not grow for `toInterval`, or `timeout` has passed. -/
def fire (s : RunState α) (data : List α) : Option (Bool × Nat) → Bool
  | none => s.ln ≠ 0 && b.batchCount ≤ data.length
  | some (last, elapsed) =>
    last && ((data.length == s.ln && b.toInterval < elapsed) || b.timeout < elapsed)

/-- What a fire sends: the whole buffer in one call if it is smaller than `batchCount`,
else the chunk loop. -/
def send (data : List α) : List (Call α) × List α :=
  if data.length < b.batchCount then ([⟨data, data.length⟩], []) else b.chunkLoop data

/-- One iteration of `Run`'s loop on an arrival: the new loop variables (`ln = len(data)` at
the end) and the calls made. -/
def step (s : RunState α) : Arrival α → RunState α × List (Call α)
  | .item d =>
    let data := s.data ++ [d]
    let (calls, data) := if b.fire s data none then b.send data else ([], data)
    (⟨data, data.length⟩, calls)
  | .timer last elapsed =>
    let (calls, data) :=
      if b.fire s s.data (some (last, elapsed)) then b.send s.data else ([], s.data)
    (⟨data, data.length⟩, calls)

/-- `Run` on the arrivals before the end of data, then the drain: all calls made, in order. -/
def run (s : RunState α) : List (Arrival α) → List (Call α)
  | [] => b.flush s.data
  | a :: as => (b.step s a).2 ++ run (b.step s a).1 as

/-- `Run` from its start: an empty buffer and `ln = 0`. -/
def runFromStart (as : List (Arrival α)) : List (Call α) := b.run ⟨[], 0⟩ as

end Batch

/-! ## The buffer never outgrows one batch

With `batchCount ≥ 2` the buffer holds fewer than `batchCount` items between iterations:
an item can fill it only up to `batchCount`, which fires at once, since a buffer of one item
cannot be full. Every call then carries the whole buffer and empties it, and the chunk loop
and the drain run at most once. -/

namespace Batch

variable (b : Batch)

/-- The loop invariant of `Run`: `ln` is the buffer's length, and the buffer is not full. -/
def Inv (s : RunState α) : Prop := s.ln = s.data.length ∧ s.data.length < b.batchCount

theorem inv_start : b.Inv (⟨[], 0⟩ : RunState α) := ⟨rfl, b.batchCount_pos⟩

/-- A buffer of at most `batchCount` items is sent in one call and emptied. -/
theorem send_of_le {data : List α} (h : data.length ≤ b.batchCount) :
    ∃ k, b.send data = ([⟨data, k⟩], []) := by
  unfold send
  split
  · exact ⟨_, rfl⟩
  · have heq : data.length = b.batchCount := by omega
    refine ⟨b.batchCount, ?_⟩
    rw [chunkLoop, if_pos (by omega)]
    have hdrop : data.drop b.batchCount = [] := List.drop_eq_nil_of_le (by omega)
    rw [hdrop, chunkLoop, if_neg (by have := b.batchCount_pos; simp; omega)]

/-- The drain of a buffer of at most `batchCount` items: one call with all of it, or none. -/
theorem flush_of_le {data : List α} (h : data.length ≤ b.batchCount) :
    ((b.flush data).map Call.data).flatten = data ∧
      ∀ c ∈ b.flush data, c.data.length ≤ b.batchCount := by
  rw [flush]
  split
  · rename_i hpos
    rw [Nat.min_eq_left h, List.drop_length, flush, if_neg (by simp)]
    simp [h]
  · rename_i hzero
    have : data = [] := List.eq_nil_of_length_eq_zero (by omega)
    simp [this]

variable {b}

/-- **One iteration.** From a state with a non-full buffer, an arrival leaves a non-full
buffer; what is sent, followed by the new buffer, is the old buffer followed by the arrival's
item; and no call carries more than `batchCount` items. -/
theorem step_spec (hb : 2 ≤ b.batchCount) {s : RunState α} (hs : b.Inv s) (a : Arrival α) :
    b.Inv (b.step s a).1 ∧
      ((b.step s a).2.map Call.data).flatten ++ (b.step s a).1.data = s.data ++ items [a] ∧
      ∀ c ∈ (b.step s a).2, c.data.length ≤ b.batchCount := by
  obtain ⟨hln, hlt⟩ := hs
  cases a with
  | item d =>
    have hle : (s.data ++ [d]).length ≤ b.batchCount := by simp; omega
    by_cases hf : b.fire s (s.data ++ [d]) none = true
    · obtain ⟨k, hk⟩ := b.send_of_le hle
      simp only [step, hf, if_true, hk]
      exact ⟨b.inv_start, by simp [items], by simpa using hle⟩
    · -- not fired: either `ln` was zero, so the buffer had no item, or it is not full
      have hlt' : (s.data ++ [d]).length < b.batchCount := by
        simp only [fire, Bool.and_eq_true, decide_eq_true_eq, not_and] at hf
        by_cases h0 : s.ln = 0
        · simp; omega
        · have := hf h0
          omega
      simp only [step, hf, Bool.false_eq_true, if_false]
      exact ⟨⟨rfl, hlt'⟩, by simp [items], by simp⟩
  | timer last elapsed =>
    by_cases hf : b.fire s s.data (some (last, elapsed)) = true
    · obtain ⟨k, hk⟩ := b.send_of_le hlt.le
      simp only [step, hf, if_true, hk]
      exact ⟨b.inv_start, by simp [items], by simpa using hlt.le⟩
    · simp only [step, hf, Bool.false_eq_true, if_false]
      exact ⟨⟨rfl, hlt⟩, by simp [items], by simp⟩

theorem items_cons (a : Arrival α) (as : List (Arrival α)) :
    items (a :: as) = items [a] ++ items as := by
  cases a <;> simp [items]

/-- **A whole run.** From a state with a non-full buffer, `Run` followed by the drain sends
the buffer and then every item, each exactly once and in order, in calls of at most
`batchCount` items. -/
theorem run_spec (hb : 2 ≤ b.batchCount) :
    ∀ (s : RunState α) (as : List (Arrival α)), b.Inv s →
      ((b.run s as).map Call.data).flatten = s.data ++ items as ∧
        ∀ c ∈ b.run s as, c.data.length ≤ b.batchCount
  | s, [], hs => by
    simpa [run, items] using b.flush_of_le hs.2.le
  | s, a :: as, hs => by
    obtain ⟨hinv, hsent, hlen⟩ := step_spec hb hs a
    obtain ⟨ihsent, ihlen⟩ := run_spec hb (b.step s a).1 as hinv
    refine ⟨?_, ?_⟩
    · rw [run, List.map_append, List.flatten_append, ihsent, ← List.append_assoc, hsent,
        List.append_assoc, ← items_cons]
    · intro c hc
      rw [run, List.mem_append] at hc
      rcases hc with hc | hc
      · exact hlen c hc
      · exact ihlen c hc

end Batch

/-- The batch `peer.broadcast` builds: `toInterval` 10 ms, `timeout` 30 ms, `batchCount`
1000 (times in milliseconds). -/
def peerBatch : Batch := ⟨10, 30, 1000, by decide⟩

/-- The transaction lists `peer.broadcast`'s callback passes to `SendTransactions`: the whole
slice of every call, whatever its count. -/
def sentTransactions (calls : List (Call α)) : List (List α) := calls.map Call.data

/-- **No loss, no duplication in the broadcast to a peer.** Whatever the interleaving of the
transactions put and the timer expiries before `Stop`, `SendTransactions` sends every
transaction put exactly once, in the order put, in calls of at most `batchCount`
transactions. -/
theorem peerBatch_sends_each_once (as : List (Arrival α)) :
    (sentTransactions (peerBatch.runFromStart as)).flatten = items as ∧
      ∀ txs ∈ sentTransactions (peerBatch.runFromStart as), txs.length ≤ peerBatch.batchCount := by
  obtain ⟨hsent, hlen⟩ := Batch.run_spec (b := peerBatch) (by decide) ⟨[], 0⟩ as peerBatch.inv_start
  refine ⟨by simpa [sentTransactions, Batch.runFromStart] using hsent, ?_⟩
  intro txs htxs
  obtain ⟨c, hc, rfl⟩ := List.mem_map.mp htxs
  exact hlen c hc

end GoMetadium.Common
