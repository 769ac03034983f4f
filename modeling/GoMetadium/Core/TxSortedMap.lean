import Mathlib
import GoMetadium.Lib.Heap
import GoMetadium.Core.Signing

set_option autoImplicit false

/-! # The nonce-indexed transaction map (`core/tx_list.go`)

`txSortedMap` holds an account's transactions in the pool by nonce in three representations:
the Go map `items` from nonce to transaction, the heap `index` of the nonces (a `nonceHeap`,
through `container/heap`), and `cache`, the transactions sorted by nonce or `nil`. `Put`,
`Forward`, `Filter`, `Cap`, `Remove`, `Ready` and `Flatten` each update all three; `Forward` and
`Cap` patch the cache by cutting a count off its front or back.

The map is the list of its values: `Put` stores each transaction under its own nonce, so the
keys are the values' nonces. The range loops over the map run over this list, in an order the
results do not depend on. `sort.Sort` is `List.mergeSort`: on distinct nonces every sort gives
the same list. A transaction the map does not hold is `none`, Go's `nil`; the results of
`Forward`, `Cap` and `Ready` are lists of such lookups.

`TxSortedMap.Inv` is the invariant the operations keep: distinct nonces, a heap holding exactly
those nonces, and a cache that, when set, is the map in increasing nonce order
(`IsNonceOrder`). From it each operation's result is specified.
-/

namespace GoMetadium.Core

open GoHeap

/-- `tx.Nonce()`. -/
def Transaction.nonce (tx : Transaction) : Nat := tx.data.accountNonce

/-! ## `nonceHeap` -/

/-- `nonceHeap.Less(i, j)`: `h[i] < h[j]`. -/
def nonceHeapLess (h : List Nat) (i j : Nat) : Bool := decide (h.getD i 0 < h.getD j 0)

theorem nonceHeapLess_eq (h : List Nat) (i j : Nat) (_ : i < h.length) (_ : j < h.length) :
    nonceHeapLess h i j = decide ((fun o : Option Nat => o.getD 0) h[i]? <
      (fun o : Option Nat => o.getD 0) h[j]?) := by
  simp only [nonceHeapLess, List.getD_eq_getElem?_getD]

/-- A `nonceHeap` read by its values. -/
def nonceModel : Model (sliceInterface nonceHeapLess) (Option Nat) Nat :=
  sliceModel nonceHeapLess (fun o => o.getD 0) nonceHeapLess_eq

/-! ## The map `items` -/

/-- `m.items[nonce]`, `none` for the `nil` of an absent nonce. -/
def getItem (items : List Transaction) (nonce : Nat) : Option Transaction :=
  items.find? fun tx => decide (tx.nonce = nonce)

/-- `delete(m.items, nonce)`. -/
def deleteItem (items : List Transaction) (nonce : Nat) : List Transaction :=
  items.filter fun tx => decide (tx.nonce ≠ nonce)

/-- `m.items[nonce] = tx` for `nonce = tx.Nonce()`. -/
def setItem (items : List Transaction) (tx : Transaction) : List Transaction :=
  tx :: deleteItem items tx.nonce

/-- `sort.Sort(types.TxByNonce(txs))`. -/
def sortByNonce (txs : List Transaction) : List Transaction :=
  txs.mergeSort fun a b => decide (a.nonce ≤ b.nonce)

/-! ## `txSortedMap` -/

/-- `txSortedMap`: the map `items`, the nonce heap `index`, and the sorted `cache`, `none` for
`nil`. -/
structure TxSortedMap where
  items : List Transaction
  index : List Nat
  cache : Option (List Transaction)

/-- `newTxSortedMap()`. -/
def newTxSortedMap : TxSortedMap := ⟨[], [], none⟩

/-- `m.Put(tx)`: a new nonce is pushed onto the heap; the cache is dropped. -/
def TxSortedMap.put (m : TxSortedMap) (tx : Transaction) : TxSortedMap :=
  { items := setItem m.items tx
    index := if getItem m.items tx.nonce = none then slicePush nonceHeapLess m.index tx.nonce
      else m.index
    cache := none }

/-- The loop of `Forward`: pop the heap while its least nonce is below `threshold`. -/
def forwardLoop (threshold : Nat) (items : List Transaction) (index : List Nat)
    (removed : List (Option Transaction)) :
    List Transaction × List Nat × List (Option Transaction) :=
  if 0 < index.length ∧ index.getD 0 0 < threshold then
    -- `heap.Pop(m.index).(uint64)`; the heap is not empty here
    let nonce := (slicePop nonceHeapLess index).1.getD 0
    forwardLoop threshold (deleteItem items nonce) (slicePop nonceHeapLess index).2
      (removed ++ [getItem items nonce])
  else (items, index, removed)
termination_by index.length
decreasing_by
  simp only [slicePop, List.length_take]
  omega

/-- `m.Forward(threshold)`: the transactions below `threshold`, cut off the cache's front. -/
def TxSortedMap.forward (m : TxSortedMap) (threshold : Nat) :
    List (Option Transaction) × TxSortedMap :=
  let r := forwardLoop threshold m.items m.index []
  (r.2.2, { items := r.1, index := r.2.1, cache := m.cache.map fun c => c.drop r.2.2.length })

/-- `m.Filter(filter)`: the range loop removes what `filter` selects; if anything went, the heap
is rebuilt from the nonces left and the cache dropped. -/
def TxSortedMap.filter (m : TxSortedMap) (f : Transaction → Bool) :
    List Transaction × TxSortedMap :=
  let removed := m.items.filter f
  let items := m.items.filter fun tx => !f tx
  if removed.length > 0 then
    (removed, { items := items
                index := init (sliceInterface nonceHeapLess) (items.map Transaction.nonce)
                cache := none })
  else (removed, { m with items := items })

/-- The loop of `Cap` over the sorted heap: from `size = len(m.items)` down to `threshold`, drop
the transaction of nonce `index[size-1]`. -/
def capLoop (index : List Nat) (threshold : Nat) :
    Nat → List Transaction → List (Option Transaction) →
      List Transaction × List (Option Transaction)
  | 0, items, drops => (items, drops)
  | size + 1, items, drops =>
    if size + 1 > threshold then
      capLoop index threshold size (deleteItem items (index.getD size 0))
        (drops ++ [getItem items (index.getD size 0)])
    else (items, drops)

/-- `m.Cap(threshold)`: sort the heap, drop the highest nonces, cut the heap to `threshold` and
heap it again, and cut the cache's back. -/
def TxSortedMap.cap (m : TxSortedMap) (threshold : Nat) :
    List (Option Transaction) × TxSortedMap :=
  if m.items.length ≤ threshold then ([], m)
  else
    -- `sort.Sort(*m.index)`
    let sorted := m.index.mergeSort fun a b => decide (a ≤ b)
    let r := capLoop sorted threshold m.items.length m.items []
    (r.2, { items := r.1
            index := init (sliceInterface nonceHeapLess) (sorted.take threshold)
            cache := m.cache.map fun c => c.take (c.length - r.2.length) })

/-- `m.Remove(nonce)`: a linear search of the heap for the nonce, then `heap.Remove`. -/
def TxSortedMap.remove (m : TxSortedMap) (nonce : Nat) : Bool × TxSortedMap :=
  match getItem m.items nonce with
  | none => (false, m)
  | some _ =>
    let index := match m.index.findIdx? fun n => decide (n = nonce) with
      | some i => (sliceRemove nonceHeapLess m.index i).2
      | none => m.index
    (true, { items := deleteItem m.items nonce, index, cache := none })

/-- The loop of `Ready`: pop the heap while its least nonce is `next`, counting `next` up. -/
def readyLoop (next : Nat) (items : List Transaction) (index : List Nat)
    (ready : List (Option Transaction)) :
    List Transaction × List Nat × List (Option Transaction) :=
  if 0 < index.length ∧ index.getD 0 0 = next then
    readyLoop (next + 1) (deleteItem items next) (slicePop nonceHeapLess index).2
      (ready ++ [getItem items next])
  else (items, index, ready)
termination_by index.length
decreasing_by
  simp only [slicePop, List.length_take]
  omega

/-- `m.Ready(start)`: nothing if the least nonce is above `start`; otherwise the run of nonces
from the least one, and the cache is dropped. -/
def TxSortedMap.ready (m : TxSortedMap) (start : Nat) : List (Option Transaction) × TxSortedMap :=
  if m.index.length = 0 ∨ m.index.getD 0 0 > start then ([], m)
  else
    let r := readyLoop (m.index.getD 0 0) m.items m.index []
    (r.2.2, { items := r.1, index := r.2.1, cache := none })

/-- `m.Flatten()`: the cache, sorted from the map first if it is `nil`. -/
def TxSortedMap.flatten (m : TxSortedMap) : List Transaction × TxSortedMap :=
  match m.cache with
  | some c => (c, m)
  | none => (sortByNonce m.items, { m with cache := some (sortByNonce m.items) })

/-! ## Increasing nonce order -/

/-- `l` is `txs` in increasing nonce order. -/
def IsNonceOrder (l txs : List Transaction) : Prop :=
  l.Perm txs ∧ l.Pairwise fun a b => a.nonce < b.nonce

namespace IsNonceOrder

/-- There is one increasing nonce order of a list. -/
theorem eq {l l' txs : List Transaction} (h : IsNonceOrder l txs) (h' : IsNonceOrder l' txs) :
    l = l' := by
  apply List.Perm.eq_of_pairwise _ h.2 h'.2 (h.1.trans h'.1.symm)
  intro a b _ _ hab hba
  exact absurd (hab.trans hba) (lt_irrefl _)

/-- A list with an increasing nonce order has distinct nonces. -/
theorem nodup {l txs : List Transaction} (h : IsNonceOrder l txs) :
    (txs.map Transaction.nonce).Nodup := by
  have hl : (l.map Transaction.nonce).Nodup :=
    List.nodup_iff_pairwise_ne.mpr (List.pairwise_map.mpr (h.2.imp ne_of_lt))
  exact (h.1.map _).nodup_iff.mp hl

theorem filter {l txs : List Transaction} (h : IsNonceOrder l txs) (p : Transaction → Bool) :
    IsNonceOrder (l.filter p) (txs.filter p) :=
  ⟨h.1.filter p, h.2.filter p⟩

theorem mem_iff {l txs : List Transaction} (h : IsNonceOrder l txs) {tx : Transaction} :
    tx ∈ l ↔ tx ∈ txs :=
  h.1.mem_iff

/-- The front of an increasing nonce order is a least element, and the rest orders the others. -/
theorem cons {a : Transaction} {l txs : List Transaction} (h : IsNonceOrder (a :: l) txs) :
    (∀ y ∈ txs, a.nonce ≤ y.nonce) ∧ IsNonceOrder l (deleteItem txs a.nonce) := by
  have hrest : ∀ y ∈ l, a.nonce < y.nonce := (List.pairwise_cons.mp h.2).1
  constructor
  · intro y hy
    rcases List.mem_cons.mp (h.mem_iff.mpr hy) with rfl | hyl
    · exact le_rfl
    · exact (hrest y hyl).le
  · have hf := h.filter fun tx => decide (tx.nonce ≠ a.nonce)
    have hl : (a :: l).filter (fun tx => decide (tx.nonce ≠ a.nonce)) = l := by
      rw [List.filter_cons_of_neg (by simp), List.filter_eq_self]
      intro y hy
      simpa using (hrest y hy).ne'
    rw [hl] at hf
    exact hf

/-- A least element of `txs` is the front of its increasing nonce order. -/
theorem eq_cons_of_min {l txs : List Transaction} (h : IsNonceOrder l txs) {tx : Transaction}
    (hmem : tx ∈ txs) (hmin : ∀ y ∈ txs, tx.nonce ≤ y.nonce) :
    l = tx :: l.tail := by
  cases l with
  | nil => exact absurd (h.mem_iff.mpr hmem) List.not_mem_nil
  | cons a l =>
    have hrest : ∀ y ∈ l, a.nonce < y.nonce := (List.pairwise_cons.mp h.2).1
    rcases List.mem_cons.mp (h.mem_iff.mpr hmem) with rfl | htl
    · rfl
    · have := hmin a (h.mem_iff.mp List.mem_cons_self)
      exact absurd (hrest tx htl) (not_lt.mpr this)

/-- In increasing nonce order the transactions below `t` come first. -/
theorem drop_filter_lt {l txs : List Transaction} (h : IsNonceOrder l txs) (t : Nat) :
    l.drop (l.filter fun tx => decide (tx.nonce < t)).length =
      l.filter fun tx => !decide (tx.nonce < t) := by
  induction l generalizing txs with
  | nil => rfl
  | cons a l ih =>
    have hrest : ∀ y ∈ l, a.nonce < y.nonce := (List.pairwise_cons.mp h.2).1
    have ih' := @ih l ⟨List.Perm.refl l, (List.pairwise_cons.mp h.2).2⟩
    by_cases ha : a.nonce < t
    · rw [List.filter_cons_of_pos (by simpa using ha), List.filter_cons_of_neg (by simpa using ha),
        List.length_cons, List.drop_succ_cons, ih']
    · -- every later nonce is above `a`'s, so none is below `t`
      have hnone : (a :: l).filter (fun tx => decide (tx.nonce < t)) = [] := by
        rw [List.filter_eq_nil_iff]
        intro y hy
        rcases List.mem_cons.mp hy with rfl | hyl
        · simpa using ha
        · have := hrest y hyl
          simp only [decide_eq_true_eq]
          omega
      rw [hnone, List.length_nil, List.drop_zero, eq_comm, List.filter_eq_self]
      intro y hy
      rcases List.mem_cons.mp hy with rfl | hyl
      · simpa using ha
      · have := hrest y hyl
        simp only [Bool.not_eq_true', decide_eq_false_iff_not, not_lt]
        omega

end IsNonceOrder

/-- `sort.Sort` by nonce on distinct nonces gives the increasing nonce order. -/
theorem isNonceOrder_sortByNonce {txs : List Transaction}
    (hnd : (txs.map Transaction.nonce).Nodup) : IsNonceOrder (sortByNonce txs) txs := by
  have hperm : (sortByNonce txs).Perm txs := List.mergeSort_perm _ _
  have hle := @List.pairwise_mergeSort _ (fun a b : Transaction => decide (a.nonce ≤ b.nonce))
    (fun a b c hab hbc => by simp only [decide_eq_true_eq] at *; omega)
    (fun a b => by simp only [Bool.or_eq_true, decide_eq_true_eq]; omega) txs
  have hne : (sortByNonce txs).Pairwise fun a b => a.nonce ≠ b.nonce :=
    List.pairwise_map.mp (List.nodup_iff_pairwise_ne.mp ((hperm.map _).nodup_iff.mpr hnd))
  refine ⟨hperm, (hle.and hne).imp ?_⟩
  intro a b hab
  simp only [decide_eq_true_eq] at hab
  omega

/-! ## The map's lookups -/

theorem getItem_of_mem {txs : List Transaction} (hnd : (txs.map Transaction.nonce).Nodup)
    {tx : Transaction} (hmem : tx ∈ txs) : getItem txs tx.nonce = some tx := by
  induction txs with
  | nil => exact absurd hmem List.not_mem_nil
  | cons a txs ih =>
    rw [List.map_cons, List.nodup_cons] at hnd
    unfold getItem
    rcases List.mem_cons.mp hmem with rfl | htl
    · simp
    · -- `a` has another nonce, so the search passes it
      have hne : a.nonce ≠ tx.nonce := fun he => hnd.1 (he ▸ List.mem_map_of_mem htl)
      rw [List.find?_cons_of_neg (by simpa using hne)]
      exact ih hnd.2 htl

theorem getItem_eq_none_iff {txs : List Transaction} {n : Nat} :
    getItem txs n = none ↔ n ∉ txs.map Transaction.nonce := by
  simp [getItem, List.find?_eq_none]

theorem deleteItem_nodup {txs : List Transaction} (hnd : (txs.map Transaction.nonce).Nodup)
    (n : Nat) : ((deleteItem txs n).map Transaction.nonce).Nodup :=
  hnd.sublist (List.filter_sublist.map _)

theorem deleteItem_of_not_mem {txs : List Transaction} {n : Nat}
    (h : n ∉ txs.map Transaction.nonce) : deleteItem txs n = txs := by
  unfold deleteItem
  rw [List.filter_eq_self]
  intro tx htx
  have : tx.nonce ≠ n := fun he => h (he ▸ List.mem_map_of_mem htx)
  simpa using this

/-- Deleting a stored nonce takes it once off the map's nonces. -/
theorem nonces_perm_deleteItem {txs : List Transaction}
    (hnd : (txs.map Transaction.nonce).Nodup) {n : Nat} (hn : n ∈ txs.map Transaction.nonce) :
    (txs.map Transaction.nonce).Perm (n :: (deleteItem txs n).map Transaction.nonce) := by
  have hfilter : (deleteItem txs n).map Transaction.nonce =
      (txs.map Transaction.nonce).filter fun k => k != n := by
    rw [List.filter_map, deleteItem]
    congr 1
    apply List.filter_congr
    intro tx _
    rw [Bool.eq_iff_iff]
    simp
  rw [hfilter, ← hnd.erase_eq_filter]
  exact List.perm_cons_erase hn

/-! ## The nonce heap -/

/-- The root of a nonce heap is its least nonce. -/
theorem nonceHeap_root_le {index : List Nat} (ho : Ordered nonceModel index index.length)
    {y : Nat} (hy : y ∈ index) : index.getD 0 0 ≤ y := by
  obtain ⟨c, hc, rfl⟩ := List.mem_iff_getElem.mp hy
  have hle := ho.root_le c hc
  unfold keyAt at hle
  simpa [nonceModel, sliceModel, List.getD_eq_getElem?_getD, List.getElem?_eq_getElem hc] using hle

/-- A heap of the map's nonces has the least nonce at its root. -/
theorem root_le_nonce {items : List Transaction} {index : List Nat}
    (hperm : index.Perm (items.map Transaction.nonce)) (ho : Ordered nonceModel index index.length)
    {tx : Transaction} (htx : tx ∈ items) : index.getD 0 0 ≤ tx.nonce :=
  nonceHeap_root_le ho (hperm.mem_iff.mpr (List.mem_map_of_mem htx))

/-- A nonempty heap of the map's nonces has a stored transaction at its root. -/
theorem exists_root_item {items : List Transaction} {index : List Nat}
    (hperm : index.Perm (items.map Transaction.nonce)) (hpos : 0 < index.length) :
    ∃ tx ∈ items, tx.nonce = index.getD 0 0 := by
  have hmem : index.getD 0 0 ∈ index := by
    rw [List.getD_eq_getElem _ _ hpos]
    exact List.getElem_mem hpos
  exact List.mem_map.mp (hperm.mem_iff.mp hmem)

/-- `heap.Push` on the nonce heap. -/
theorem nonceHeap_push {index : List Nat} (n : Nat) (ho : Ordered nonceModel index index.length) :
    Ordered nonceModel (slicePush nonceHeapLess index n) (slicePush nonceHeapLess index n).length ∧
      (slicePush nonceHeapLess index n).Perm (n :: index) := by
  have h : Ordered nonceModel (slicePush nonceHeapLess index n) (index.length + 1) ∧
      (slicePush nonceHeapLess index n).Perm (n :: index) := slicePush_spec n ho
  rw [h.2.length_eq]
  exact h

/-- `heap.Pop` on a nonempty nonce heap returns the root. -/
theorem nonceHeap_pop {index : List Nat} (hpos : 0 < index.length)
    (ho : Ordered nonceModel index index.length) :
    (slicePop nonceHeapLess index).1.getD 0 = index.getD 0 0 ∧
      Ordered nonceModel (slicePop nonceHeapLess index).2 (slicePop nonceHeapLess index).2.length ∧
      (index.getD 0 0 :: (slicePop nonceHeapLess index).2).Perm index := by
  have h : (slicePop nonceHeapLess index).1 = index[0]? ∧
      (slicePop nonceHeapLess index).2.length = index.length - 1 ∧
      Ordered nonceModel (slicePop nonceHeapLess index).2 (index.length - 1) ∧
      ∃ x, index[0]? = some x ∧ (x :: (slicePop nonceHeapLess index).2).Perm index :=
    slicePop_spec hpos ho
  obtain ⟨hfirst, hlen, hord, x, hx, hperm⟩ := h
  have hroot : index.getD 0 0 = x := by
    rw [List.getD_eq_getElem?_getD, hx]
    rfl
  refine ⟨by rw [hfirst, hx, hroot]; rfl, by rw [hlen]; exact hord, by rw [hroot]; exact hperm⟩

/-- `heap.Remove(h, i)` on the nonce heap takes out `h[i]`. -/
theorem nonceHeap_remove {index : List Nat} {i : Nat} (hi : i < index.length)
    (ho : Ordered nonceModel index index.length) :
    Ordered nonceModel (sliceRemove nonceHeapLess index i).2
        (sliceRemove nonceHeapLess index i).2.length ∧
      (index[i] :: (sliceRemove nonceHeapLess index i).2).Perm index := by
  have h : (sliceRemove nonceHeapLess index i).1 = index[i]? ∧
      (sliceRemove nonceHeapLess index i).2.length = index.length - 1 ∧
      Ordered nonceModel (sliceRemove nonceHeapLess index i).2 (index.length - 1) ∧
      ∃ x, index[i]? = some x ∧ (x :: (sliceRemove nonceHeapLess index i).2).Perm index :=
    sliceRemove_spec hi ho
  obtain ⟨-, hlen, hord, x, hx, hperm⟩ := h
  rw [List.getElem?_eq_getElem hi, Option.some.injEq] at hx
  rw [hx, hlen]
  exact ⟨hord, hperm⟩

/-- `heap.Init` on the map's nonces. -/
theorem nonceHeap_init (items : List Transaction) :
    (init (sliceInterface nonceHeapLess) (items.map Transaction.nonce)).Perm
        (items.map Transaction.nonce) ∧
      Ordered nonceModel (init (sliceInterface nonceHeapLess) (items.map Transaction.nonce))
        (init (sliceInterface nonceHeapLess) (items.map Transaction.nonce)).length := by
  have h : Ordered nonceModel (init (sliceInterface nonceHeapLess) (items.map Transaction.nonce))
        (items.map Transaction.nonce).length ∧
      (init (sliceInterface nonceHeapLess) (items.map Transaction.nonce)).Perm
        (items.map Transaction.nonce) := sliceInit_spec _
  rw [h.2.length_eq]
  exact ⟨h.2, h.1⟩

/-! ## The invariant -/

/-- What the operations of a `txSortedMap` keep: the map's nonces are distinct, the heap holds
each of them once and is ordered, and a cache that is set orders the map. -/
structure TxSortedMap.Inv (m : TxSortedMap) : Prop where
  nodup : (m.items.map Transaction.nonce).Nodup
  index_perm : m.index.Perm (m.items.map Transaction.nonce)
  ordered : Ordered nonceModel m.index m.index.length
  cache_order : ∀ c, m.cache = some c → IsNonceOrder c m.items

namespace TxSortedMap

theorem new_inv : newTxSortedMap.Inv where
  nodup := List.nodup_nil
  index_perm := List.Perm.refl _
  ordered := fun _ _ hcn _ => absurd hcn (Nat.not_lt_zero _)
  cache_order := fun _ h => by cases h

/-- A map whose invariant holds but for a dropped cache: the heap rebuilt from its nonces. -/
theorem inv_of_init (items : List Transaction) (hnd : (items.map Transaction.nonce).Nodup) :
    (⟨items, init (sliceInterface nonceHeapLess) (items.map Transaction.nonce), none⟩ :
      TxSortedMap).Inv where
  nodup := hnd
  index_perm := (nonceHeap_init items).1
  ordered := (nonceHeap_init items).2
  cache_order := fun _ h => by cases h

/-- `Put` keeps the invariant. -/
theorem put_inv {m : TxSortedMap} (hm : m.Inv) (tx : Transaction) : (m.put tx).Inv := by
  have hnd : ((setItem m.items tx).map Transaction.nonce).Nodup := by
    rw [setItem, List.map_cons, List.nodup_cons]
    refine ⟨?_, deleteItem_nodup hm.nodup _⟩
    intro hmem
    obtain ⟨y, hy, hyn⟩ := List.mem_map.mp hmem
    have := (List.mem_filter.mp hy).2
    simp [hyn] at this
  cases hget : getItem m.items tx.nonce with
  | none =>
    -- a new nonce: the heap gets it pushed
    have habs : tx.nonce ∉ m.items.map Transaction.nonce := getItem_eq_none_iff.mp hget
    have hpush := nonceHeap_push tx.nonce hm.ordered
    have hindex : (m.put tx).index = slicePush nonceHeapLess m.index tx.nonce := by
      simp [TxSortedMap.put, hget]
    constructor
    · exact hnd
    · rw [hindex]
      show List.Perm _ ((setItem m.items tx).map Transaction.nonce)
      rw [setItem, List.map_cons, deleteItem_of_not_mem habs]
      exact hpush.2.trans (hm.index_perm.cons _)
    · rw [hindex]
      exact hpush.1
    · exact fun _ h => by cases h
  | some old =>
    -- a replacement: the heap already holds the nonce
    have hold : old ∈ m.items ∧ old.nonce = tx.nonce := by
      have h := List.find?_some hget
      exact ⟨List.mem_of_find?_eq_some hget, by simpa using h⟩
    have hmem : tx.nonce ∈ m.items.map Transaction.nonce := hold.2 ▸ List.mem_map_of_mem hold.1
    have hindex : (m.put tx).index = m.index := by
      simp [TxSortedMap.put, hget]
    constructor
    · exact hnd
    · rw [hindex]
      show List.Perm _ ((setItem m.items tx).map Transaction.nonce)
      rw [setItem, List.map_cons]
      exact hm.index_perm.trans (nonces_perm_deleteItem hm.nodup hmem)
    · rw [hindex]
      exact hm.ordered
    · exact fun _ h => by cases h

/-- `Filter` removes exactly what the filter selects and keeps the invariant. -/
theorem filter_spec {m : TxSortedMap} (hm : m.Inv) (f : Transaction → Bool) :
    (m.filter f).1 = m.items.filter f ∧ (m.filter f).2.items = m.items.filter (fun tx => !f tx) ∧
      (m.filter f).2.Inv := by
  by_cases hrem : (m.items.filter f).length > 0
  · have hnd : ((m.items.filter fun tx => !f tx).map Transaction.nonce).Nodup :=
      hm.nodup.sublist (List.filter_sublist.map _)
    have hdef : m.filter f = (m.items.filter f,
        ⟨m.items.filter fun tx => !f tx,
          init (sliceInterface nonceHeapLess) ((m.items.filter fun tx => !f tx).map Transaction.nonce),
          none⟩) := by
      simp only [TxSortedMap.filter, if_pos hrem]
    rw [hdef]
    exact ⟨rfl, rfl, inv_of_init _ hnd⟩
  · -- nothing selected: the map, heap and cache stay
    have hnil : m.items.filter f = [] := List.eq_nil_of_length_eq_zero (by omega)
    have hsame : m.items.filter (fun tx => !f tx) = m.items := by
      rw [List.filter_eq_self]
      intro tx htx
      have : f tx = false := by
        by_contra hf
        have : tx ∈ m.items.filter f := List.mem_filter.mpr ⟨htx, by simpa using hf⟩
        rw [hnil] at this
        exact List.not_mem_nil this
      simp [this]
    have hdef : m.filter f = (m.items.filter f, { m with items := m.items.filter fun tx => !f tx }) := by
      simp only [TxSortedMap.filter, if_neg hrem]
    rw [hdef]
    refine ⟨rfl, rfl, ?_⟩
    show TxSortedMap.Inv { m with items := m.items.filter fun tx => !f tx }
    rw [hsame]
    exact hm

/-- `Flatten` returns the map in increasing nonce order, and keeps the invariant. -/
theorem flatten_spec {m : TxSortedMap} (hm : m.Inv) :
    IsNonceOrder m.flatten.1 m.items ∧ m.flatten.2.items = m.items ∧ m.flatten.2.Inv := by
  unfold TxSortedMap.flatten
  cases hc : m.cache with
  | some c => exact ⟨hm.cache_order c hc, rfl, hm⟩
  | none =>
    have hsort := isNonceOrder_sortByNonce hm.nodup
    refine ⟨hsort, rfl, ⟨hm.nodup, hm.index_perm, hm.ordered, ?_⟩⟩
    intro c h
    cases h
    exact hsort

end TxSortedMap

/-! ## Popping the heap: `Forward` and `Ready` -/

/-- One pop of the heap of a map's nonces: the root is the least stored nonce, its transaction is
in the map, and the rest of the heap is a heap of the rest of the map. -/
theorem pop_step {items : List Transaction} {index : List Nat}
    (hnd : (items.map Transaction.nonce).Nodup) (hperm : index.Perm (items.map Transaction.nonce))
    (hord : Ordered nonceModel index index.length) (hpos : 0 < index.length) :
    ∃ tx ∈ items, tx.nonce = index.getD 0 0 ∧ (∀ y ∈ items, tx.nonce ≤ y.nonce) ∧
      getItem items (index.getD 0 0) = some tx ∧
      (slicePop nonceHeapLess index).1.getD 0 = index.getD 0 0 ∧
      (slicePop nonceHeapLess index).2.Perm
        ((deleteItem items (index.getD 0 0)).map Transaction.nonce) ∧
      Ordered nonceModel (slicePop nonceHeapLess index).2 (slicePop nonceHeapLess index).2.length := by
  obtain ⟨hfirst, hord', hperm'⟩ := nonceHeap_pop hpos hord
  obtain ⟨tx, htx, htxn⟩ := exists_root_item hperm hpos
  have hmem : index.getD 0 0 ∈ items.map Transaction.nonce := htxn ▸ List.mem_map_of_mem htx
  have hrest := (hperm'.trans (hperm.trans (nonces_perm_deleteItem hnd hmem))).cons_inv
  refine ⟨tx, htx, htxn, fun y hy => htxn ▸ root_le_nonce hperm hord hy, ?_, hfirst, hrest, hord'⟩
  rw [← htxn]
  exact getItem_of_mem hnd htx

/-- An empty heap of a map's nonces belongs to an empty map. -/
theorem items_eq_nil {items : List Transaction} {index : List Nat}
    (hperm : index.Perm (items.map Transaction.nonce)) (h0 : index.length = 0) : items = [] := by
  have := hperm.length_eq
  rw [List.length_map, h0] at this
  exact List.eq_nil_of_length_eq_zero this.symm

/-- Deleting a nonce below `t` leaves the transactions from `t` on. -/
theorem filter_ge_deleteItem {items : List Transaction} {n t : Nat} (hn : n < t) :
    (deleteItem items n).filter (fun tx => !decide (tx.nonce < t)) =
      items.filter (fun tx => !decide (tx.nonce < t)) := by
  rw [deleteItem, List.filter_filter]
  apply List.filter_congr
  intro tx _
  by_cases ht : tx.nonce < t
  · simp [ht]
  · have : tx.nonce ≠ n := by omega
    simp [ht, this]

/-- The loop of `Forward` pops exactly the transactions below `threshold`, least nonce first,
and leaves a heap of the others. -/
theorem forwardLoop_spec (threshold : Nat) :
    ∀ (items : List Transaction) (index : List Nat) (removed : List (Option Transaction)),
      (items.map Transaction.nonce).Nodup → index.Perm (items.map Transaction.nonce) →
      Ordered nonceModel index index.length →
      (forwardLoop threshold items index removed).1 =
          items.filter (fun tx => !decide (tx.nonce < threshold)) ∧
        (forwardLoop threshold items index removed).2.1.Perm
          ((forwardLoop threshold items index removed).1.map Transaction.nonce) ∧
        Ordered nonceModel (forwardLoop threshold items index removed).2.1
          (forwardLoop threshold items index removed).2.1.length ∧
        ∀ l, IsNonceOrder l items → (forwardLoop threshold items index removed).2.2 =
          removed ++ (l.filter fun tx => decide (tx.nonce < threshold)).map some := by
  intro items index removed
  induction items, index, removed using forwardLoop.induct threshold with
  | case1 items index removed hpop nonce ih =>
    intro hnd hperm hord
    obtain ⟨tx, htx, htxn, hmin, hget, hfirst, hrest, hord'⟩ := pop_step hnd hperm hord hpop.1
    have hnonce : nonce = index.getD 0 0 := hfirst
    rw [hnonce] at ih
    obtain ⟨h1, h2, h3, h4⟩ := ih (deleteItem_nodup hnd _) hrest hord'
    rw [forwardLoop, if_pos hpop]
    dsimp only
    rw [hfirst]
    refine ⟨h1.trans (filter_ge_deleteItem hpop.2), h2, h3, ?_⟩
    -- the popped root is the front of the nonce order
    intro l hl
    have hl' := hl.eq_cons_of_min htx hmin
    rw [hl'] at hl
    have htail : IsNonceOrder l.tail (deleteItem items (index.getD 0 0)) := htxn ▸ hl.cons.2
    rw [h4 l.tail htail, hl', List.filter_cons_of_pos (by simpa [htxn] using hpop.2), hget]
    simp
  | case2 items index removed hstop =>
    intro _ hperm hord
    -- the root is at least `threshold`, so every stored nonce is
    have hall : ∀ y ∈ items, threshold ≤ y.nonce := by
      intro y hy
      have hpos : 0 < index.length :=
        List.length_pos_of_mem (hperm.mem_iff.mpr (List.mem_map_of_mem hy))
      have := root_le_nonce hperm hord hy
      have : ¬ index.getD 0 0 < threshold := fun h => hstop ⟨hpos, h⟩
      omega
    rw [forwardLoop, if_neg hstop]
    refine ⟨?_, ?_, hord, ?_⟩
    · rw [eq_comm, List.filter_eq_self]
      intro y hy
      simpa using hall y hy
    · exact hperm
    · intro l hl
      rw [List.filter_eq_nil_iff.mpr (fun y hy => by simpa using hall y (hl.mem_iff.mp hy))]
      simp

namespace TxSortedMap

/-- `Forward(t)` returns the transactions below `t` in increasing nonce order, keeps the others
and keeps the invariant. -/
theorem forward_spec {m : TxSortedMap} (hm : m.Inv) (t : Nat) :
    (∀ l, IsNonceOrder l m.items →
      (m.forward t).1 = (l.filter fun tx => decide (tx.nonce < t)).map some) ∧
    (m.forward t).2.items = m.items.filter (fun tx => !decide (tx.nonce < t)) ∧
    (m.forward t).2.Inv := by
  obtain ⟨h1, h2, h3, h4⟩ := forwardLoop_spec t m.items m.index [] hm.nodup hm.index_perm hm.ordered
  refine ⟨fun l hl => by simpa [TxSortedMap.forward] using h4 l hl, h1, ?_⟩
  constructor
  · show ((forwardLoop t m.items m.index []).1.map Transaction.nonce).Nodup
    rw [h1]
    exact hm.nodup.sublist (List.filter_sublist.map _)
  · exact h2
  · exact h3
  · -- the cache loses its front, the transactions below `t`
    intro c hc
    obtain ⟨c0, hc0, rfl⟩ := Option.map_eq_some_iff.mp hc
    have hord := hm.cache_order c0 hc0
    show IsNonceOrder (c0.drop (forwardLoop t m.items m.index []).2.2.length)
      (forwardLoop t m.items m.index []).1
    rw [h4 c0 hord, h1, List.nil_append, List.length_map, hord.drop_filter_lt t]
    exact hord.filter _

end TxSortedMap

/-- The front of a list whose nonces count up from `next` without a gap. -/
def consecutiveRun (next : Nat) : List Transaction → List Transaction
  | [] => []
  | tx :: rest => if tx.nonce = next then tx :: consecutiveRun (next + 1) rest else []

/-- A heap of a map's nonces has the front of the map's nonce order at its root. -/
theorem head_nonce_eq_root {items : List Transaction} {index : List Nat}
    (hperm : index.Perm (items.map Transaction.nonce)) (hord : Ordered nonceModel index index.length)
    {a : Transaction} {l : List Transaction} (hl : IsNonceOrder (a :: l) items) :
    a.nonce = index.getD 0 0 := by
  have hpos : 0 < index.length := by
    rw [hperm.length_eq, List.length_map, ← hl.1.length_eq]
    exact Nat.zero_lt_succ _
  obtain ⟨tx, htx, htxn⟩ := exists_root_item hperm hpos
  have h1 := hl.cons.1 tx htx
  have h2 := root_le_nonce hperm hord (hl.mem_iff.mp List.mem_cons_self)
  omega

/-- The loop of `Ready` pops the run of nonces from `next`, and leaves a heap of the others. -/
theorem readyLoop_spec :
    ∀ (next : Nat) (items : List Transaction) (index : List Nat)
      (ready : List (Option Transaction)),
      (items.map Transaction.nonce).Nodup → index.Perm (items.map Transaction.nonce) →
      Ordered nonceModel index index.length →
      (readyLoop next items index ready).1.Sublist items ∧
        (readyLoop next items index ready).2.1.Perm
          ((readyLoop next items index ready).1.map Transaction.nonce) ∧
        Ordered nonceModel (readyLoop next items index ready).2.1
          (readyLoop next items index ready).2.1.length ∧
        ∀ l, IsNonceOrder l items →
          (readyLoop next items index ready).2.2 = ready ++ (consecutiveRun next l).map some ∧
          IsNonceOrder (l.drop (consecutiveRun next l).length)
            (readyLoop next items index ready).1 := by
  intro next items index ready
  induction next, items, index, ready using readyLoop.induct with
  | case1 next items index ready hpop ih =>
    intro hnd hperm hord
    obtain ⟨tx, htx, htxn, hmin, hget, -, hrest, hord'⟩ := pop_step hnd hperm hord hpop.1
    rw [hpop.2] at htxn hget hrest
    obtain ⟨h1, h2, h3, h4⟩ := ih (deleteItem_nodup hnd _) hrest hord'
    rw [readyLoop, if_pos hpop]
    refine ⟨h1.trans List.filter_sublist, h2, h3, ?_⟩
    -- the popped root, of nonce `next`, starts the run
    intro l hl
    have hl' := hl.eq_cons_of_min htx hmin
    rw [hl'] at hl
    have htail : IsNonceOrder l.tail (deleteItem items next) := htxn ▸ hl.cons.2
    obtain ⟨h5, h6⟩ := h4 l.tail htail
    rw [hl', consecutiveRun, if_pos htxn, h5]
    refine ⟨by simp [hget], ?_⟩
    rw [List.length_cons, List.drop_succ_cons]
    exact h6
  | case2 next items index ready hstop =>
    intro _ hperm hord
    rw [readyLoop, if_neg hstop]
    refine ⟨List.Sublist.refl _, hperm, hord, ?_⟩
    intro l hl
    -- the least nonce is not `next`, or there is none: the run is empty
    have hrun : consecutiveRun next l = [] := by
      cases l with
      | nil => rfl
      | cons a l =>
        have ha := head_nonce_eq_root hperm hord hl
        have hpos : 0 < index.length := by
          rw [hperm.length_eq, List.length_map, ← hl.1.length_eq]
          exact Nat.zero_lt_succ _
        have hne : a.nonce ≠ next := fun he => hstop ⟨hpos, ha ▸ he⟩
        rw [consecutiveRun, if_neg hne]
    rw [hrun]
    exact ⟨by simp, hl⟩

/-- Deleting the last of an increasing nonce order leaves the order of the front. -/
theorem IsNonceOrder.deleteItem_last {l txs : List Transaction} {a : Transaction}
    (h : IsNonceOrder (l ++ [a]) txs) : IsNonceOrder l (deleteItem txs a.nonce) := by
  have hf := h.filter fun tx => decide (tx.nonce ≠ a.nonce)
  have hlt : ∀ y ∈ l, y.nonce < a.nonce := fun y hy =>
    (List.pairwise_append.mp h.2).2.2 y hy a List.mem_cons_self
  have hfront : (l ++ [a]).filter (fun tx => decide (tx.nonce ≠ a.nonce)) = l := by
    rw [List.filter_append, List.filter_singleton]
    simp only [ne_eq, not_true_eq_false, decide_false, cond_false, List.append_nil]
    rw [List.filter_eq_self]
    intro y hy
    simpa using (hlt y hy).ne
  rw [hfront] at hf
  exact hf

/-- The loop of `Cap` over the increasing nonces of `L` drops the transactions from position
`threshold` to `size`, last first. -/
theorem capLoop_spec (L : List Transaction) (threshold : Nat) :
    ∀ (size : Nat) (items : List Transaction) (drops : List (Option Transaction)),
      threshold ≤ size → size ≤ L.length → IsNonceOrder (L.take size) items →
      IsNonceOrder (L.take threshold)
          (capLoop (L.map Transaction.nonce) threshold size items drops).1 ∧
        (capLoop (L.map Transaction.nonce) threshold size items drops).2 =
          drops ++ ((L.take size).drop threshold).reverse.map some := by
  intro size
  induction size with
  | zero =>
    intro items drops ht _ hord
    rw [Nat.le_zero.mp ht]
    exact ⟨hord, by simp [capLoop]⟩
  | succ size ih =>
    intro items drops ht hsize hord
    have hlt : size < L.length := by omega
    have htake : L.take (size + 1) = L.take size ++ [L[size]] := List.take_succ_eq_append_getElem hlt
    by_cases hmore : size + 1 > threshold
    · -- drop the transaction of the highest nonce left
      have hn : (L.map Transaction.nonce).getD size 0 = L[size].nonce := by
        rw [List.getD_eq_getElem _ _ (by simpa using hlt), List.getElem_map]
      have hmem : L[size] ∈ items := by
        apply hord.mem_iff.mp
        rw [htake]
        exact List.mem_append_right _ List.mem_cons_self
      have hget := getItem_of_mem hord.nodup hmem
      rw [htake] at hord
      obtain ⟨h1, h2⟩ := ih (deleteItem items L[size].nonce) (drops ++ [some L[size]]) (by omega)
        (by omega) hord.deleteItem_last
      simp only [capLoop, if_pos hmore, hn, hget]
      refine ⟨h1, ?_⟩
      rw [h2, htake, List.drop_append_of_le_length (by simp; omega)]
      simp
    · -- `size + 1 = threshold`: nothing more to drop
      have hts : threshold = size + 1 := by omega
      simp only [capLoop, if_neg hmore]
      rw [hts]
      exact ⟨hord, by simp⟩

namespace TxSortedMap

/-- `Ready(s)` returns nothing if the least nonce is above `s`, and otherwise the run of
consecutive nonces from the least one; the rest stays, and the invariant holds. -/
theorem ready_spec {m : TxSortedMap} (hm : m.Inv) (s : Nat) :
    (∀ l, IsNonceOrder l m.items →
      (m.ready s).1 = (match l with
        | [] => []
        | tx :: _ => if tx.nonce ≤ s then (consecutiveRun tx.nonce l).map some else []) ∧
      IsNonceOrder (l.drop (m.ready s).1.length) (m.ready s).2.items) ∧
    (m.ready s).2.Inv := by
  by_cases hshort : m.index.length = 0 ∨ m.index.getD 0 0 > s
  · have hdef : m.ready s = ([], m) := by
      simp only [TxSortedMap.ready, if_pos hshort]
    rw [hdef]
    refine ⟨fun l hl => ⟨?_, by simpa using hl⟩, hm⟩
    cases l with
    | nil => rfl
    | cons a l =>
      -- the least nonce is above `s`
      have ha := head_nonce_eq_root hm.index_perm hm.ordered hl
      rcases hshort with h0 | hgt
      · rw [items_eq_nil hm.index_perm h0] at hl
        exact absurd hl.1.length_eq (by simp)
      · simp only
        rw [if_neg (by omega)]
  · have hpos : 0 < m.index.length := by omega
    obtain ⟨h1, h2, h3, h4⟩ := readyLoop_spec (m.index.getD 0 0) m.items m.index []
      hm.nodup hm.index_perm hm.ordered
    have hdef : m.ready s = ((readyLoop (m.index.getD 0 0) m.items m.index []).2.2,
        ⟨(readyLoop (m.index.getD 0 0) m.items m.index []).1,
          (readyLoop (m.index.getD 0 0) m.items m.index []).2.1, none⟩) := by
      simp only [TxSortedMap.ready, if_neg hshort]
    rw [hdef]
    refine ⟨?_, ⟨hm.nodup.sublist (h1.map _), h2, h3, fun _ h => by cases h⟩⟩
    intro l hl
    cases l with
    | nil =>
      -- a nonempty heap belongs to a nonempty map
      have hnil : m.items = [] := List.nil_perm.mp hl.1
      have hlen := hm.index_perm.length_eq
      rw [hnil] at hlen
      simp only [List.map_nil, List.length_nil] at hlen
      omega
    | cons a l =>
      have ha := head_nonce_eq_root hm.index_perm hm.ordered hl
      obtain ⟨h5, h6⟩ := h4 (a :: l) hl
      rw [List.nil_append] at h5
      simp only
      rw [if_pos (by omega), ha]
      refine ⟨h5, ?_⟩
      rw [h5, List.length_map]
      exact h6

/-- `Cap(k)` returns the transactions past the `k` lowest nonces, highest first, keeps the `k`
lowest, and keeps the invariant. -/
theorem cap_spec {m : TxSortedMap} (hm : m.Inv) (k : Nat) :
    (∀ l, IsNonceOrder l m.items →
      (m.cap k).1 = (l.drop k).reverse.map some ∧ IsNonceOrder (l.take k) (m.cap k).2.items) ∧
    (m.cap k).2.Inv := by
  by_cases hle : m.items.length ≤ k
  · have hdef : m.cap k = ([], m) := by
      simp only [TxSortedMap.cap, if_pos hle]
    rw [hdef]
    refine ⟨fun l hl => ?_, hm⟩
    have hlen : l.length ≤ k := hl.1.length_eq ▸ hle
    rw [List.drop_eq_nil_of_le hlen, List.take_of_length_le hlen]
    exact ⟨rfl, hl⟩
  -- the sorted heap is the nonce order's nonces, whichever order `l` is
  have hsorted : ∀ l, IsNonceOrder l m.items →
      m.index.mergeSort (fun a b => decide (a ≤ b)) = l.map Transaction.nonce := by
    intro l hl
    apply @List.Perm.eq_of_pairwise _ (fun a b : Nat => a ≤ b) _ _
    · intro a b _ _ hab hba
      exact le_antisymm hab hba
    · have := @List.pairwise_mergeSort _ (fun a b : Nat => decide (a ≤ b))
        (fun a b c hab hbc => by simp only [decide_eq_true_eq] at *; omega)
        (fun a b => by simp only [Bool.or_eq_true, decide_eq_true_eq]; omega) m.index
      exact this.imp fun h => by simpa using h
    · exact List.pairwise_map.mpr (hl.2.imp le_of_lt)
    · exact (List.mergeSort_perm _ _).trans (hm.index_perm.trans (hl.1.map _).symm)
  have hloop : ∀ l, IsNonceOrder l m.items →
      IsNonceOrder (l.take k) (capLoop (l.map Transaction.nonce) k m.items.length m.items []).1 ∧
        (capLoop (l.map Transaction.nonce) k m.items.length m.items []).2 =
          (l.drop k).reverse.map some := by
    intro l hl
    have hlen : m.items.length = l.length := hl.1.length_eq.symm
    obtain ⟨h1, h2⟩ := capLoop_spec l k m.items.length m.items [] (by omega) (by omega)
      (by rw [hlen, List.take_length]; exact hl)
    refine ⟨h1, ?_⟩
    rw [h2, hlen, List.take_length, List.nil_append]
  have hdef : ∀ l, IsNonceOrder l m.items → m.cap k =
      ((capLoop (l.map Transaction.nonce) k m.items.length m.items []).2,
        ⟨(capLoop (l.map Transaction.nonce) k m.items.length m.items []).1,
          init (sliceInterface nonceHeapLess) ((l.take k).map Transaction.nonce),
          m.cache.map fun c =>
            c.take (c.length - (capLoop (l.map Transaction.nonce) k m.items.length m.items []).2.length)⟩) := by
    intro l hl
    simp only [TxSortedMap.cap, if_neg hle, hsorted l hl, List.map_take]
  refine ⟨fun l hl => ?_, ?_⟩
  · rw [hdef l hl]
    exact ⟨(hloop l hl).2, (hloop l hl).1⟩
  · have hL := isNonceOrder_sortByNonce hm.nodup
    obtain ⟨h1, h2⟩ := hloop _ hL
    obtain ⟨hinit1, hinit2⟩ := nonceHeap_init ((sortByNonce m.items).take k)
    rw [hdef _ hL]
    constructor
    · exact h1.nodup
    · exact hinit1.trans (h1.1.map _)
    · exact hinit2
    · -- the cache loses its back, the transactions past the `k` lowest
      intro c hc
      obtain ⟨c0, hc0, rfl⟩ := Option.map_eq_some_iff.mp hc
      have hc0L := (hm.cache_order c0 hc0).eq hL
      rw [h2, hc0L, List.length_map, List.length_reverse, List.length_drop]
      rw [show (sortByNonce m.items).length - ((sortByNonce m.items).length - k) = k by
        have := hL.1.length_eq
        omega]
      exact h1

/-- `Remove(n)` reports whether `n` is stored, deletes it, and keeps the invariant. -/
theorem remove_spec {m : TxSortedMap} (hm : m.Inv) (n : Nat) :
    (m.remove n).1 = decide (n ∈ m.items.map Transaction.nonce) ∧
      (m.remove n).2.items = deleteItem m.items n ∧ (m.remove n).2.Inv := by
  cases hget : getItem m.items n with
  | none =>
    have habs := getItem_eq_none_iff.mp hget
    have hdef : m.remove n = (false, m) := by
      simp only [TxSortedMap.remove, hget]
    rw [hdef, deleteItem_of_not_mem habs]
    exact ⟨by simp [habs], rfl, hm⟩
  | some tx =>
    have htx : tx ∈ m.items ∧ tx.nonce = n :=
      ⟨List.mem_of_find?_eq_some hget, by simpa using List.find?_some hget⟩
    have hmem : n ∈ m.items.map Transaction.nonce := htx.2 ▸ List.mem_map_of_mem htx.1
    -- the linear search finds the nonce in the heap
    obtain ⟨i, hfind⟩ : ∃ i, m.index.findIdx? (fun k => decide (k = n)) = some i := by
      cases h : m.index.findIdx? (fun k => decide (k = n)) with
      | some i => exact ⟨i, rfl⟩
      | none =>
        have := List.findIdx?_eq_none_iff.mp h n (hm.index_perm.mem_iff.mpr hmem)
        simp at this
    obtain ⟨hi, hin, -⟩ := List.findIdx?_eq_some_iff_getElem.mp hfind
    have hin' : m.index[i] = n := by simpa using hin
    obtain ⟨hord, hperm⟩ := nonceHeap_remove hi hm.ordered
    rw [hin'] at hperm
    have hrest := (hperm.trans (hm.index_perm.trans (nonces_perm_deleteItem hm.nodup hmem))).cons_inv
    have hdef : m.remove n = (true,
        ⟨deleteItem m.items n, (sliceRemove nonceHeapLess m.index i).2, none⟩) := by
      simp only [TxSortedMap.remove, hget, hfind]
    rw [hdef]
    exact ⟨by simp [hmem], rfl, ⟨deleteItem_nodup hm.nodup n, hrest, hord, fun _ h => by cases h⟩⟩

end TxSortedMap

/-! ## Runs -/

/-- The operations that change a `txSortedMap`. -/
inductive SortedMapOp where
  | put (tx : Transaction)
  | forward (threshold : Nat)
  | filter (f : Transaction → Bool)
  | cap (threshold : Nat)
  | remove (nonce : Nat)
  | ready (start : Nat)
  | flatten

namespace TxSortedMap

/-- One operation, its result dropped. -/
def step (m : TxSortedMap) : SortedMapOp → TxSortedMap
  | .put tx => m.put tx
  | .forward t => (m.forward t).2
  | .filter f => (m.filter f).2
  | .cap k => (m.cap k).2
  | .remove n => (m.remove n).2
  | .ready s => (m.ready s).2
  | .flatten => m.flatten.2

/-- A sequence of operations. -/
def run (m : TxSortedMap) (ops : List SortedMapOp) : TxSortedMap := ops.foldl step m

theorem step_inv {m : TxSortedMap} (hm : m.Inv) : ∀ op, (m.step op).Inv
  | .put tx => put_inv hm tx
  | .forward t => (forward_spec hm t).2.2
  | .filter f => (filter_spec hm f).2.2
  | .cap k => (cap_spec hm k).2
  | .remove n => (remove_spec hm n).2.2
  | .ready s => (ready_spec hm s).2
  | .flatten => (flatten_spec hm).2.2

/-- Every run keeps the invariant. -/
theorem run_inv : ∀ (ops : List SortedMapOp) {m : TxSortedMap}, m.Inv → (m.run ops).Inv
  | [], _, hm => hm
  | op :: ops, _, hm => run_inv ops (step_inv hm op)

end TxSortedMap

/-- After any sequence of operations from `newTxSortedMap`, the heap holds the map's distinct
nonces once each and is ordered, a set cache is the map in increasing nonce order, and so,
for the map's increasing nonce order `l`: `Forward(t)` returns the transactions below `t` in
order, `Ready(s)` returns the run of consecutive nonces from the least one if that is at most
`s`, `Cap(k)` returns all but the `k` lowest, highest first, and keeps the `k` lowest, and
`Flatten` returns `l`. -/
theorem txSortedMap_consistent (ops : List SortedMapOp) :
    (newTxSortedMap.run ops).Inv ∧
    (∀ t l, IsNonceOrder l (newTxSortedMap.run ops).items →
      ((newTxSortedMap.run ops).forward t).1 =
        (l.filter fun tx => decide (tx.nonce < t)).map some) ∧
    (∀ s l, IsNonceOrder l (newTxSortedMap.run ops).items →
      ((newTxSortedMap.run ops).ready s).1 = (match l with
        | [] => []
        | tx :: _ => if tx.nonce ≤ s then (consecutiveRun tx.nonce l).map some else [])) ∧
    (∀ k l, IsNonceOrder l (newTxSortedMap.run ops).items →
      ((newTxSortedMap.run ops).cap k).1 = (l.drop k).reverse.map some ∧
        IsNonceOrder (l.take k) ((newTxSortedMap.run ops).cap k).2.items) ∧
    IsNonceOrder (newTxSortedMap.run ops).flatten.1 (newTxSortedMap.run ops).items := by
  have hm := TxSortedMap.run_inv ops TxSortedMap.new_inv
  refine ⟨hm, fun t => (TxSortedMap.forward_spec hm t).1, fun s l hl =>
    ((TxSortedMap.ready_spec hm s).1 l hl).1, fun k => (TxSortedMap.cap_spec hm k).1,
    (TxSortedMap.flatten_spec hm).1⟩

/-- A transaction of nonce 0 and price 1. -/
def sampleTx : Transaction := ⟨⟨0, 1, 21000, none, 0, [], 27, 1, 1⟩, none⟩

theorem txSortedMap_consistent_put :
    IsNonceOrder [sampleTx] (newTxSortedMap.run [.put sampleTx]).items ∧
      ((newTxSortedMap.run [.put sampleTx]).forward 1).1 = [some sampleTx] := by
  have hord : IsNonceOrder [sampleTx] (newTxSortedMap.run [.put sampleTx]).items :=
    ⟨List.Perm.refl _, List.pairwise_singleton _ _⟩
  refine ⟨hord, ?_⟩
  rw [(txSortedMap_consistent [.put sampleTx]).2.1 1 [sampleTx] hord]
  decide

end GoMetadium.Core
