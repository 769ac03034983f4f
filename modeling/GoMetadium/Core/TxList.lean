import Mathlib
import GoMetadium.Core.TxSortedMap
import GoMetadium.Lib.GoInt

set_option autoImplicit false

/-! # An account's transaction list (`core/tx_list.go`)

`txList` wraps a `txSortedMap` with two caps: `costcap`, the highest `Cost()`, and `gascap`,
the highest `Gas()`, of the transactions it took. `Add` raises them, and nothing but `Filter`
lowers them, to its limits. `Filter(costLimit, gasLimit)` returns nothing at once when both caps
are within the limits; otherwise it removes the transactions over a limit, and in strict mode
(the pending queue) also every one above the lowest nonce it removed. `Add` replaces the
transaction at an occupied nonce only for a gas price above the old one and at least
`old * (100 + priceBump) / 100`, the sum computed in `int64`.

`TxList.Inv` is what the operations keep: the map's invariant, the caps above every transaction,
and every nonce a `uint64`. From it `Filter`'s fast path agrees with the slow one
(`filter_spec`).
-/

namespace GoMetadium.Core

open GoMetadium.Go

/-- `tx.GasPrice()`. -/
def Transaction.gasPrice (tx : Transaction) : Int := tx.data.price

/-- `tx.Gas()`. -/
def Transaction.gas (tx : Transaction) : Nat := tx.data.gasLimit

/-- `tx.Cost()`: `price * gasLimit + amount`. -/
def Transaction.cost (tx : Transaction) : Int := tx.data.price * tx.data.gasLimit + tx.data.amount

/-- `txList`. -/
structure TxList where
  strict : Bool
  txs : TxSortedMap
  costcap : Int
  gascap : Nat

/-- `newTxList(strict)`. -/
def newTxList (strict : Bool) : TxList := ⟨strict, newTxSortedMap, 0, 0⟩

/-- `l.Overlaps(tx)`. -/
def TxList.overlaps (l : TxList) (tx : Transaction) : Bool := (getItem l.txs.items tx.nonce).isSome

/-- `new(big.Int).Div(new(big.Int).Mul(old.GasPrice(), big.NewInt(100+int64(priceBump))),
big.NewInt(100))`: the sum is an `int64`, and `big.Int` division is Euclidean. -/
def replaceThreshold (oldPrice : Int) (priceBump : Nat) : Int :=
  oldPrice * wrapI64 (100 + wrapI64 priceBump) / 100

/-- `l.Add(tx, priceBump)`: whether `tx` went in, and the transaction it replaced. -/
def TxList.add (l : TxList) (tx : Transaction) (priceBump : Nat) :
    (Bool × Option Transaction) × TxList :=
  let old := getItem l.txs.items tx.nonce
  let rejected := match old with
    | some o => decide (o.gasPrice ≥ tx.gasPrice) ||
        decide (replaceThreshold o.gasPrice priceBump > tx.gasPrice)
    | none => false
  if rejected then ((false, none), l)
  else ((true, old),
    { l with
      txs := l.txs.put tx
      costcap := if l.costcap < tx.cost then tx.cost else l.costcap
      gascap := if l.gascap < tx.gas then tx.gas else l.gascap })

/-- `Filter`'s closure: the transaction costs more than `costLimit` or needs more gas than
`gasLimit`. -/
def overLimit (costLimit : Int) (gasLimit : Nat) (tx : Transaction) : Bool :=
  decide (tx.cost > costLimit) || decide (tx.gas > gasLimit)

/-- The loop of strict `Filter` over the removed transactions: the lowest nonce, from
`math.MaxUint64`. -/
def lowestNonce (removed : List Transaction) : Nat :=
  removed.foldl (fun lowest tx => if lowest > tx.nonce then tx.nonce else lowest) (2 ^ 64 - 1)

/-- `l.Filter(costLimit, gasLimit)`: the removed transactions and, in strict mode, the ones
invalidated. -/
def TxList.filter (l : TxList) (costLimit : Int) (gasLimit : Nat) :
    (List Transaction × List Transaction) × TxList :=
  if l.costcap ≤ costLimit ∧ l.gascap ≤ gasLimit then (([], []), l)
  else
    let r := l.txs.filter (overLimit costLimit gasLimit)
    if l.strict ∧ r.1.length > 0 then
      let r' := r.2.filter fun tx => decide (tx.nonce > lowestNonce r.1)
      ((r.1, r'.1), { l with txs := r'.2, costcap := costLimit, gascap := gasLimit })
    else ((r.1, []), { l with txs := r.2, costcap := costLimit, gascap := gasLimit })

/-- `l.Forward(threshold)`. -/
def TxList.forward (l : TxList) (threshold : Nat) : List (Option Transaction) × TxList :=
  ((l.txs.forward threshold).1, { l with txs := (l.txs.forward threshold).2 })

/-- `l.Cap(threshold)`. -/
def TxList.cap (l : TxList) (threshold : Nat) : List (Option Transaction) × TxList :=
  ((l.txs.cap threshold).1, { l with txs := (l.txs.cap threshold).2 })

/-- `l.Remove(tx)`: whether it was there, and in strict mode the transactions above it. -/
def TxList.remove (l : TxList) (tx : Transaction) : (Bool × List Transaction) × TxList :=
  let nonce := tx.nonce
  let r := l.txs.remove nonce
  if !r.1 then ((false, []), { l with txs := r.2 })
  else if l.strict then
    let r' := r.2.filter fun tx => decide (tx.nonce > nonce)
    ((true, r'.1), { l with txs := r'.2 })
  else ((true, []), { l with txs := r.2 })

/-- `l.Ready(start)`. -/
def TxList.ready (l : TxList) (start : Nat) : List (Option Transaction) × TxList :=
  ((l.txs.ready start).1, { l with txs := (l.txs.ready start).2 })

/-- `l.Flatten()`. -/
def TxList.flatten (l : TxList) : List Transaction × TxList :=
  (l.txs.flatten.1, { l with txs := l.txs.flatten.2 })

/-! ## `Add`'s replacement rule -/

/-- Below `2 ^ 63` the `int64` sum of `Add` does not wrap. -/
theorem replaceThreshold_of_lt {oldPrice : Int} {priceBump : Nat} (h : 100 + priceBump < 2 ^ 63) :
    replaceThreshold oldPrice priceBump = oldPrice * (100 + priceBump) / 100 := by
  have hb : wrapI64 (priceBump : Int) = priceBump := wrapI64_of_mem (by omega) (by omega)
  have hs : wrapI64 (100 + (priceBump : Int)) = 100 + priceBump :=
    wrapI64_of_mem (by omega) (by omega)
  rw [replaceThreshold, hb, hs]

/-- `Add` at an occupied nonce goes through exactly for a price above the old one and at least
`old * (100 + priceBump) / 100`. -/
theorem TxList.add_accepts_iff (l : TxList) {tx old : Transaction} {priceBump : Nat}
    (hold : getItem l.txs.items tx.nonce = some old) (h : 100 + priceBump < 2 ^ 63) :
    (l.add tx priceBump).1.1 = true ↔
      old.gasPrice < tx.gasPrice ∧ old.gasPrice * (100 + priceBump) / 100 ≤ tx.gasPrice := by
  have hrej : (decide (old.gasPrice ≥ tx.gasPrice) ||
      decide (replaceThreshold old.gasPrice priceBump > tx.gasPrice)) = true ↔
      ¬ (old.gasPrice < tx.gasPrice ∧ old.gasPrice * (100 + priceBump) / 100 ≤ tx.gasPrice) := by
    rw [replaceThreshold_of_lt h]
    simp only [Bool.or_eq_true, decide_eq_true_eq]
    omega
  simp only [TxList.add, hold]
  by_cases hr : (decide (old.gasPrice ≥ tx.gasPrice) ||
      decide (replaceThreshold old.gasPrice priceBump > tx.gasPrice)) = true
  · rw [if_pos hr]
    simpa using hrej.mp hr
  · rw [if_neg hr]
    simpa using not_not.mp (mt hrej.mpr hr)

/-! ## The lowest removed nonce -/

theorem foldl_lowest_lt_iff (n : Nat) : ∀ (xs : List Transaction) (init : Nat),
    xs.foldl (fun lowest tx => if lowest > tx.nonce then tx.nonce else lowest) init < n ↔
      init < n ∨ ∃ r ∈ xs, r.nonce < n := by
  intro xs
  induction xs with
  | nil => simp
  | cons x xs ih =>
    intro init
    rw [List.foldl_cons, ih]
    -- one step keeps the smaller of `init` and `x`'s nonce
    have hstep : (if init > x.nonce then x.nonce else init) < n ↔ init < n ∨ x.nonce < n := by
      split <;> omega
    rw [hstep]
    simp only [List.mem_cons, exists_eq_or_imp]
    tauto

/-- For a `uint64` nonce `n`, strict `Filter`'s lowest nonce is below `n` exactly when a removed
nonce is. -/
theorem lowestNonce_lt_iff {removed : List Transaction} {n : Nat} (hn : n < 2 ^ 64) :
    lowestNonce removed < n ↔ ∃ r ∈ removed, r.nonce < n := by
  have hinit : ¬ 2 ^ 64 - 1 < n := by omega
  rw [lowestNonce, foldl_lowest_lt_iff]
  simp only [hinit, false_or]

/-! ## The invariant -/

/-- What the operations of a `txList` keep: the map's invariant, the caps at least the cost and
gas of every transaction, and every nonce a `uint64`. -/
structure TxList.Inv (l : TxList) : Prop where
  txs : l.txs.Inv
  cost_le : ∀ tx ∈ l.txs.items, tx.cost ≤ l.costcap
  gas_le : ∀ tx ∈ l.txs.items, tx.gas ≤ l.gascap
  nonce_lt : ∀ tx ∈ l.txs.items, tx.nonce < 2 ^ 64

namespace TxList

theorem new_inv (strict : Bool) : (newTxList strict).Inv :=
  ⟨TxSortedMap.new_inv, fun _ h => absurd h List.not_mem_nil, fun _ h => absurd h List.not_mem_nil,
    fun _ h => absurd h List.not_mem_nil⟩

/-- A map that only lost transactions keeps the caps. -/
theorem Inv.of_subset {l : TxList} (hl : l.Inv) {m : TxSortedMap} (hm : m.Inv)
    (hsub : ∀ tx ∈ m.items, tx ∈ l.txs.items) : ({ l with txs := m } : TxList).Inv :=
  ⟨hm, fun tx h => hl.cost_le tx (hsub tx h), fun tx h => hl.gas_le tx (hsub tx h),
    fun tx h => hl.nonce_lt tx (hsub tx h)⟩

end TxList

/-! ## The map only shrinks -/

namespace TxSortedMap

theorem forward_subset {m : TxSortedMap} (hm : m.Inv) (t : Nat) :
    ∀ tx ∈ (m.forward t).2.items, tx ∈ m.items := by
  intro tx htx
  rw [(forward_spec hm t).2.1] at htx
  exact List.mem_of_mem_filter htx

theorem filter_subset {m : TxSortedMap} (hm : m.Inv) (f : Transaction → Bool) :
    ∀ tx ∈ (m.filter f).2.items, tx ∈ m.items := by
  intro tx htx
  rw [(filter_spec hm f).2.1] at htx
  exact List.mem_of_mem_filter htx

theorem cap_subset {m : TxSortedMap} (hm : m.Inv) (k : Nat) :
    ∀ tx ∈ (m.cap k).2.items, tx ∈ m.items := by
  intro tx htx
  have hL := isNonceOrder_sortByNonce hm.nodup
  have hk := ((cap_spec hm k).1 _ hL).2
  exact hL.mem_iff.mp (List.mem_of_mem_take (hk.mem_iff.mpr htx))

theorem ready_subset {m : TxSortedMap} (hm : m.Inv) (s : Nat) :
    ∀ tx ∈ (m.ready s).2.items, tx ∈ m.items := by
  intro tx htx
  have hL := isNonceOrder_sortByNonce hm.nodup
  have hd := ((ready_spec hm s).1 _ hL).2
  exact hL.mem_iff.mp (List.mem_of_mem_drop (hd.mem_iff.mpr htx))

theorem remove_subset {m : TxSortedMap} (hm : m.Inv) (n : Nat) :
    ∀ tx ∈ (m.remove n).2.items, tx ∈ m.items := by
  intro tx htx
  rw [(remove_spec hm n).2.1] at htx
  exact List.mem_of_mem_filter htx

end TxSortedMap

/-! ## The operations keep the invariant -/

namespace TxList

/-- Transactions within both limits fit under caps lowered to them. -/
theorem Inv.of_limits {l : TxList} (hl : l.Inv) {m : TxSortedMap} (hm : m.Inv) {c : Int} {g : Nat}
    (hsub : ∀ tx ∈ m.items, tx ∈ l.txs.items.filter fun tx => !overLimit c g tx) :
    ({ l with txs := m, costcap := c, gascap := g } : TxList).Inv := by
  have hwithin : ∀ tx ∈ m.items, tx ∈ l.txs.items ∧ tx.cost ≤ c ∧ tx.gas ≤ g := by
    intro tx htx
    have h := List.mem_filter.mp (hsub tx htx)
    simp only [overLimit, Bool.not_or, Bool.and_eq_true, Bool.not_eq_true',
      decide_eq_false_iff_not, not_lt] at h
    exact ⟨h.1, h.2.1, h.2.2⟩
  exact ⟨hm, fun tx h => (hwithin tx h).2.1, fun tx h => (hwithin tx h).2.2,
    fun tx h => hl.nonce_lt tx (hwithin tx h).1⟩

/-- What `Add` leaves: the list as it was, or the transaction put in with the caps raised. -/
theorem add_state (l : TxList) (tx : Transaction) (priceBump : Nat) :
    (l.add tx priceBump).2 = l ∨
      (l.add tx priceBump).2 = { l with
        txs := l.txs.put tx
        costcap := if l.costcap < tx.cost then tx.cost else l.costcap
        gascap := if l.gascap < tx.gas then tx.gas else l.gascap } := by
  unfold TxList.add
  dsimp only
  split
  · split
    · exact Or.inl rfl
    · exact Or.inr rfl
  · split
    · exact Or.inl rfl
    · exact Or.inr rfl

/-- `Add` keeps the invariant for a `uint64` nonce: a new transaction raises the caps to its own
cost and gas. -/
theorem add_inv {l : TxList} (hl : l.Inv) (tx : Transaction) (priceBump : Nat)
    (htx : tx.nonce < 2 ^ 64) : (l.add tx priceBump).2.Inv := by
  rcases add_state l tx priceBump with h | h
  · rw [h]
    exact hl
  · rw [h]
    have hmem : ∀ y ∈ (l.txs.put tx).items, y = tx ∨ y ∈ l.txs.items := by
      intro y hy
      rcases List.mem_cons.mp hy with rfl | hy
      · exact Or.inl rfl
      · exact Or.inr (List.mem_of_mem_filter hy)
    refine ⟨TxSortedMap.put_inv hl.txs tx, fun y hy => ?_, fun y hy => ?_, fun y hy => ?_⟩
    · show y.cost ≤ if l.costcap < tx.cost then tx.cost else l.costcap
      have hcap : tx.cost ≤ (if l.costcap < tx.cost then tx.cost else l.costcap) ∧
          l.costcap ≤ (if l.costcap < tx.cost then tx.cost else l.costcap) := by
        split <;> omega
      rcases hmem y hy with rfl | hy
      · exact hcap.1
      · exact (hl.cost_le y hy).trans hcap.2
    · show y.gas ≤ if l.gascap < tx.gas then tx.gas else l.gascap
      have hcap : tx.gas ≤ (if l.gascap < tx.gas then tx.gas else l.gascap) ∧
          l.gascap ≤ (if l.gascap < tx.gas then tx.gas else l.gascap) := by
        split <;> omega
      rcases hmem y hy with rfl | hy
      · exact hcap.1
      · exact (hl.gas_le y hy).trans hcap.2
    · rcases hmem y hy with rfl | hy
      · exact htx
      · exact hl.nonce_lt y hy

/-- `Filter` returns as removed exactly the transactions over a limit, and in strict mode as
invalid exactly the others with a nonce above a removed one; it keeps the invariant. The fast
path agrees: under the caps nothing is over a limit. -/
theorem filter_spec {l : TxList} (hl : l.Inv) (c : Int) (g : Nat) :
    (l.filter c g).1.1 = l.txs.items.filter (overLimit c g) ∧
    (l.filter c g).1.2 = (if l.strict then
        (l.txs.items.filter fun tx => !overLimit c g tx).filter fun tx =>
          decide (∃ r ∈ l.txs.items.filter (overLimit c g), r.nonce < tx.nonce)
      else []) ∧
    (l.filter c g).2.Inv := by
  by_cases hshort : l.costcap ≤ c ∧ l.gascap ≤ g
  · -- the caps bound every transaction, so none is over a limit
    have hnone : l.txs.items.filter (overLimit c g) = [] := by
      rw [List.filter_eq_nil_iff]
      intro tx htx
      have h1 := hl.cost_le tx htx
      have h2 := hl.gas_le tx htx
      simp only [overLimit, Bool.or_eq_true, decide_eq_true_eq, not_or, not_lt]
      omega
    have hdef : l.filter c g = (([], []), l) := by
      simp only [TxList.filter, if_pos hshort]
    rw [hdef, hnone]
    refine ⟨rfl, ?_, hl⟩
    split <;> simp
  obtain ⟨hrem, hkept, hinv⟩ := TxSortedMap.filter_spec hl.txs (overLimit c g)
  set r := l.txs.filter (overLimit c g) with hr
  by_cases hstrict : l.strict ∧ r.1.length > 0
  · set p : Transaction → Bool := fun tx => decide (tx.nonce > lowestNonce r.1) with hp
    obtain ⟨hinv1, hkept1, hinv2⟩ := TxSortedMap.filter_spec hinv p
    have hdef : l.filter c g =
        ((r.1, (r.2.filter p).1), { l with txs := (r.2.filter p).2, costcap := c, gascap := g }) := by
      simp only [TxList.filter, if_neg hshort, ← hr, if_pos hstrict, hp]
    rw [hdef, if_pos hstrict.1]
    refine ⟨hrem, ?_, ?_⟩
    · -- a nonce is above the lowest removed one exactly when it is above some removed one
      rw [hinv1, hkept]
      apply List.filter_congr
      intro tx htx
      have hn := hl.nonce_lt tx (List.mem_of_mem_filter htx)
      rw [hp, ← hrem, Bool.eq_iff_iff, decide_eq_true_iff, decide_eq_true_iff, gt_iff_lt,
        lowestNonce_lt_iff hn]
    · apply hl.of_limits hinv2
      intro tx htx
      rw [hkept1, hkept] at htx
      exact List.mem_of_mem_filter htx
  · have hdef : l.filter c g = ((r.1, []), { l with txs := r.2, costcap := c, gascap := g }) := by
      simp only [TxList.filter, if_neg hshort, ← hr, if_neg hstrict]
    rw [hdef]
    refine ⟨hrem, ?_, ?_⟩
    · split
      · -- strict with nothing removed: no nonce is above a removed one
        have hnil : l.txs.items.filter (overLimit c g) = [] := by
          rw [← hrem]
          exact List.eq_nil_of_length_eq_zero (by simp_all)
        rw [hnil]
        simp
      · rfl
    · apply hl.of_limits hinv
      intro tx htx
      rw [hkept] at htx
      exact htx

/-- `Remove` keeps the invariant. -/
theorem remove_inv {l : TxList} (hl : l.Inv) (tx : Transaction) : (l.remove tx).2.Inv := by
  obtain ⟨-, -, hinv⟩ := TxSortedMap.remove_spec hl.txs tx.nonce
  have hsub := TxSortedMap.remove_subset hl.txs tx.nonce
  unfold TxList.remove
  dsimp only
  split_ifs
  · exact hl.of_subset hinv hsub
  · obtain ⟨-, -, hinv'⟩ := TxSortedMap.filter_spec hinv fun y => decide (y.nonce > tx.nonce)
    exact hl.of_subset hinv' fun y hy =>
      hsub y (TxSortedMap.filter_subset hinv _ y hy)
  · exact hl.of_subset hinv hsub

end TxList

/-! ## Runs -/

/-- The operations that change a `txList`. -/
inductive TxListOp where
  | add (tx : Transaction) (priceBump : Nat)
  | forward (threshold : Nat)
  | filter (costLimit : Int) (gasLimit : Nat)
  | cap (threshold : Nat)
  | remove (tx : Transaction)
  | ready (start : Nat)
  | flatten

/-- A transaction the operation adds has a `uint64` nonce, as every Go transaction has. -/
def TxListOp.NonceFits : TxListOp → Prop
  | .add tx _ => tx.nonce < 2 ^ 64
  | _ => True

namespace TxList

/-- One operation, its result dropped. -/
def step (l : TxList) : TxListOp → TxList
  | .add tx b => (l.add tx b).2
  | .forward t => (l.forward t).2
  | .filter c g => (l.filter c g).2
  | .cap k => (l.cap k).2
  | .remove tx => (l.remove tx).2
  | .ready s => (l.ready s).2
  | .flatten => l.flatten.2

/-- A sequence of operations. -/
def run (l : TxList) (ops : List TxListOp) : TxList := ops.foldl step l

theorem step_inv {l : TxList} (hl : l.Inv) : ∀ op : TxListOp, op.NonceFits → (l.step op).Inv
  | .add tx b, h => add_inv hl tx b h
  | .forward t, _ => hl.of_subset (TxSortedMap.forward_spec hl.txs t).2.2
      (TxSortedMap.forward_subset hl.txs t)
  | .filter c g, _ => (filter_spec hl c g).2.2
  | .cap k, _ => hl.of_subset (TxSortedMap.cap_spec hl.txs k).2 (TxSortedMap.cap_subset hl.txs k)
  | .remove tx, _ => remove_inv hl tx
  | .ready s, _ => hl.of_subset (TxSortedMap.ready_spec hl.txs s).2
      (TxSortedMap.ready_subset hl.txs s)
  | .flatten, _ => hl.of_subset (TxSortedMap.flatten_spec hl.txs).2.2
      (fun tx h => by rwa [(TxSortedMap.flatten_spec hl.txs).2.1] at h)

/-- No operation changes the mode. -/
theorem step_strict (l : TxList) : ∀ op : TxListOp, (l.step op).strict = l.strict := by
  intro op
  cases op with
  | add tx b =>
    simp only [step, TxList.add]
    split_ifs <;> rfl
  | filter c g =>
    simp only [step, TxList.filter]
    split_ifs <;> rfl
  | remove tx =>
    simp only [step, TxList.remove]
    split_ifs <;> rfl
  | forward t => rfl
  | cap k => rfl
  | ready s => rfl
  | flatten => rfl

theorem run_inv : ∀ (ops : List TxListOp) {l : TxList}, l.Inv → (∀ op ∈ ops, op.NonceFits) →
    (l.run ops).Inv
  | [], _, hl, _ => hl
  | op :: ops, _, hl, hops =>
    run_inv ops (step_inv hl op (hops op List.mem_cons_self))
      (fun op' h => hops op' (List.mem_cons_of_mem _ h))

theorem run_strict : ∀ (ops : List TxListOp) (l : TxList), (l.run ops).strict = l.strict
  | [], _ => rfl
  | op :: ops, l => (run_strict ops (l.step op)).trans (step_strict l op)

end TxList

/-- Over every run of `txList` operations from `newTxList(strict)`, with the `uint64` nonces of
Go, the caps bound the cost and gas of every transaction held, so `Filter(c, g)` returns as
removed exactly the transactions over a limit and, in strict mode, as invalid exactly the
remaining ones with a nonce above a removed one; and on any list, `Add` at an occupied nonce
goes through exactly for a price above the old one and at least `old * (100 + priceBump) / 100`
while `100 + priceBump` fits in an `int64`. -/
theorem txList_caps_exact (strict : Bool) (ops : List TxListOp)
    (hops : ∀ op ∈ ops, op.NonceFits) :
    ((newTxList strict).run ops).Inv ∧
    (∀ c g, (((newTxList strict).run ops).filter c g).1.1 =
        ((newTxList strict).run ops).txs.items.filter (overLimit c g) ∧
      (((newTxList strict).run ops).filter c g).1.2 = (if strict then
        (((newTxList strict).run ops).txs.items.filter fun tx => !overLimit c g tx).filter
          fun tx => decide (∃ r ∈ ((newTxList strict).run ops).txs.items.filter (overLimit c g),
            r.nonce < tx.nonce)
        else [])) ∧
    (∀ (l : TxList) (tx old : Transaction) (priceBump : Nat),
      getItem l.txs.items tx.nonce = some old → 100 + priceBump < 2 ^ 63 →
      ((l.add tx priceBump).1.1 = true ↔
        old.gasPrice < tx.gasPrice ∧ old.gasPrice * (100 + priceBump) / 100 ≤ tx.gasPrice)) := by
  have hl := TxList.run_inv ops (TxList.new_inv strict) hops
  have hstrict : ((newTxList strict).run ops).strict = strict := TxList.run_strict ops _
  refine ⟨hl, fun c g => ?_, fun l tx old priceBump hold h => l.add_accepts_iff hold h⟩
  obtain ⟨h1, h2, -⟩ := TxList.filter_spec hl c g
  rw [hstrict] at h2
  exact ⟨h1, h2⟩

theorem txList_caps_exact_add :
    (((newTxList true).run [.add sampleTx 10]).filter 0 0).1.1 = [sampleTx] := by
  have h := txList_caps_exact true [.add sampleTx 10] (by
    intro op hop
    rw [List.mem_singleton.mp hop]
    show sampleTx.nonce < 2 ^ 64
    decide)
  rw [(h.2.1 0 0).1]
  decide

/-- `sampleTx` again at twice the price. -/
def sampleReplacement : Transaction := ⟨⟨0, 2, 21000, none, 0, [], 27, 1, 1⟩, none⟩

/-- At `priceBump = 2 ^ 63` the `int64` sum wraps below zero, and a price of 2 replaces a price
of 1 although `1 * (100 + 2 ^ 63) / 100` is far above 2. -/
theorem txList_add_accepts_wrapped_bump :
    getItem ((newTxList true).add sampleTx 0).2.txs.items sampleReplacement.nonce = some sampleTx ∧
      (((newTxList true).add sampleTx 0).2.add sampleReplacement (2 ^ 63)).1.1 = true ∧
      ¬ (sampleTx.gasPrice * (100 + 2 ^ 63) / 100 ≤ sampleReplacement.gasPrice) := by
  decide

end GoMetadium.Core
