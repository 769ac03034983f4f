import Mathlib
import GoMetadium.Lib.Heap
import GoMetadium.Core.TxList

set_option autoImplicit false

/-! # Transactions by price and nonce (`core/types/transaction.go`)

The miner takes the pending transactions through `TransactionsByPriceAndNonce`: a price heap
`heads` (`TxByPrice`, whose `Less` puts the higher price first) of one transaction per account,
and under each account in `txs` the transactions after its head. `Peek` is the heap's root;
`Shift` replaces it by the next transaction of its account, or pops it when there is none; `Pop`
drops the rest of the account.

`Sender(signer, tx)` is a function `sender` of the transaction here: with a sound cache it is
one (`sender_of_cacheSound`), and the address of an error is the zero address. Go's map is a
list of entries (`lookupTxs`, `setTxs`); the constructor ranges over the entries it started
with, as Go does when every head's sender is its entry's key.

`Inv` is what the calls keep: `heads` a heap, one head per account, and every tail
transaction of its head's account. `account t a` is what is left of account `a`. The miner's
loop `drain` emits each account's transactions in their order (`drain_filter`), hence all of
them; `Shift` takes the head off its account (`account_shift`), `Pop` all of the account
(`account_pop`), and the root has the highest price (`peek_price_max`).
-/

namespace GoMetadium.Core

open GoHeap

/-! ## The heap of heads -/

/-- `TxByPrice.Less(i, j)`: `s[i].data.Price.Cmp(s[j].data.Price) > 0`. -/
def priceLess (s : List Transaction) (i j : Nat) : Bool :=
  match s[i]?, s[j]? with
  | some a, some b => decide (a.data.price > b.data.price)
  | _, _ => false

/-- The key the price heap orders by: the price, the higher first. -/
def priceKey (o : Option Transaction) : OrderDual Int :=
  OrderDual.toDual ((o.map Transaction.gasPrice).getD 0)

theorem priceLess_eq (l : List Transaction) (i j : Nat) (hi : i < l.length) (hj : j < l.length) :
    priceLess l i j = decide (priceKey l[i]? < priceKey l[j]?) := by
  rw [priceLess, List.getElem?_eq_getElem hi, List.getElem?_eq_getElem hj]
  simp [priceKey, Transaction.gasPrice]

/-- `heads` read as a heap of prices. -/
def priceModel : Model (sliceInterface priceLess) (Option Transaction) (OrderDual Int) :=
  sliceModel priceLess priceKey priceLess_eq

/-- The root of a price heap has the highest price. -/
theorem priceHeap_root_max {heads : List Transaction} (ho : Ordered priceModel heads heads.length)
    {tx : Transaction} (hroot : heads[0]? = some tx) {h : Transaction} (hh : h ∈ heads) :
    h.gasPrice ≤ tx.gasPrice := by
  obtain ⟨c, hc, rfl⟩ := List.mem_iff_getElem.mp hh
  have hle := ho.root_le c hc
  change priceKey heads[0]? ≤ priceKey heads[c]? at hle
  rw [hroot, List.getElem?_eq_getElem hc] at hle
  simpa [priceKey] using hle

/-! ## The map of tails

A Go `map[common.Address]Transactions` is a list of entries, read at the first entry of a key
and assigned there, or appended for a new key. -/

/-- `txs[acc]`, with whether it is there. -/
def lookupTxs (txs : List (List UInt8 × List Transaction)) (acc : List UInt8) :
    Option (List Transaction) :=
  (txs.find? fun e => decide (e.1 = acc)).map Prod.snd

/-- `txs[acc] = l`. -/
def setTxs : List (List UInt8 × List Transaction) → List UInt8 → List Transaction →
    List (List UInt8 × List Transaction)
  | [], acc, l => [(acc, l)]
  | e :: rest, acc, l => if e.1 = acc then (acc, l) :: rest else e :: setTxs rest acc l

/-- `delete(txs, acc)`. -/
def deleteTxs (txs : List (List UInt8 × List Transaction)) (acc : List UInt8) :
    List (List UInt8 × List Transaction) :=
  txs.filter fun e => decide (e.1 ≠ acc)

/-- The number of transactions under all keys. -/
def tailsSize (txs : List (List UInt8 × List Transaction)) : Nat :=
  (txs.map fun e => e.2.length).sum

theorem lookupTxs_cons (e : List UInt8 × List Transaction)
    (rest : List (List UInt8 × List Transaction)) (acc : List UInt8) :
    lookupTxs (e :: rest) acc = if e.1 = acc then some e.2 else lookupTxs rest acc := by
  unfold lookupTxs
  rw [List.find?_cons]
  by_cases h : e.1 = acc <;> simp [h]

theorem lookupTxs_eq_none {txs : List (List UInt8 × List Transaction)} {acc : List UInt8}
    (h : acc ∉ txs.map Prod.fst) : lookupTxs txs acc = none := by
  induction txs with
  | nil => rfl
  | cons e rest ih =>
    simp only [List.map_cons, List.mem_cons, not_or] at h
    rw [lookupTxs_cons, if_neg (Ne.symm h.1), ih h.2]

theorem mem_of_lookupTxs {txs : List (List UInt8 × List Transaction)} {acc : List UInt8}
    {l : List Transaction} (h : lookupTxs txs acc = some l) : (acc, l) ∈ txs := by
  induction txs with
  | nil => cases h
  | cons e rest ih =>
    rw [lookupTxs_cons] at h
    by_cases he : e.1 = acc
    · rw [if_pos he, Option.some.injEq] at h
      subst h
      exact List.mem_cons.mpr (Or.inl (by rw [← he]))
    · rw [if_neg he] at h
      exact List.mem_cons_of_mem e (ih h)

theorem lookupTxs_setTxs_self (txs : List (List UInt8 × List Transaction)) (acc : List UInt8)
    (l : List Transaction) : lookupTxs (setTxs txs acc l) acc = some l := by
  induction txs with
  | nil => simp [setTxs, lookupTxs_cons]
  | cons e rest ih =>
    by_cases he : e.1 = acc
    · rw [setTxs, if_pos he, lookupTxs_cons, if_pos rfl]
    · rw [setTxs, if_neg he, lookupTxs_cons, if_neg he, ih]

theorem lookupTxs_setTxs_ne (txs : List (List UInt8 × List Transaction)) {acc b : List UInt8}
    (l : List Transaction) (hb : b ≠ acc) : lookupTxs (setTxs txs acc l) b = lookupTxs txs b := by
  induction txs with
  | nil => simp [setTxs, lookupTxs_cons, Ne.symm hb]
  | cons e rest ih =>
    by_cases he : e.1 = acc
    · have heb : ¬ e.1 = b := fun h => hb (h.symm.trans he)
      rw [setTxs, if_pos he, lookupTxs_cons, lookupTxs_cons, if_neg (Ne.symm hb), if_neg heb]
    · rw [setTxs, if_neg he, lookupTxs_cons, lookupTxs_cons, ih]

/-- Assigning a key's list changes the count by the difference of the lists. -/
theorem tailsSize_setTxs {txs : List (List UInt8 × List Transaction)} {acc : List UInt8}
    {l : List Transaction} (hl : lookupTxs txs acc = some l) (l' : List Transaction) :
    tailsSize (setTxs txs acc l') + l.length = tailsSize txs + l'.length := by
  induction txs with
  | nil => cases hl
  | cons e rest ih =>
    rw [lookupTxs_cons] at hl
    by_cases he : e.1 = acc
    · rw [if_pos he, Option.some.injEq] at hl
      subst hl
      simp only [setTxs, if_pos he, tailsSize, List.map_cons, List.sum_cons]
      omega
    · rw [if_neg he] at hl
      have h := ih hl
      simp only [setTxs, if_neg he, tailsSize, List.map_cons, List.sum_cons] at h ⊢
      omega

/-- Assigning a key no entry of `done` has skips `done`. -/
theorem setTxs_append {done : List (List UInt8 × List Transaction)} {acc : List UInt8}
    (h : acc ∉ done.map Prod.fst) (rest : List (List UInt8 × List Transaction))
    (l : List Transaction) : setTxs (done ++ rest) acc l = done ++ setTxs rest acc l := by
  induction done with
  | nil => rfl
  | cons e done ih =>
    simp only [List.map_cons, List.mem_cons, not_or] at h
    rw [List.cons_append, setTxs, if_neg (Ne.symm h.1), ih h.2, List.cons_append]

/-! ## The structure and its calls -/

/-- `TransactionsByPriceAndNonce`; `sender` is `Sender(signer, ·)` for its `signer`. -/
structure TxsByPriceAndNonce where
  txs : List (List UInt8 × List Transaction)
  heads : List Transaction
  sender : Transaction → List UInt8

/-- The loop of `NewTransactionsByPriceAndNonce` over the entries it started with: each entry's
first transaction becomes a head, the rest goes under the head's sender, and the entry is
deleted when that is another key. An empty list is the panic of `accTxs[0]`. -/
def newLoop (sender : Transaction → List UInt8) :
    List (List UInt8 × List Transaction) → List Transaction →
      List (List UInt8 × List Transaction) →
        Option (List Transaction × List (List UInt8 × List Transaction))
  | [], heads, txs => some (heads, txs)
  | (_, []) :: _, _, _ => none
  | (fromAddr, tx :: rest) :: entries, heads, txs =>
    let acc := sender tx
    let txs := setTxs txs acc rest
    newLoop sender entries (heads ++ [tx]) (if fromAddr ≠ acc then deleteTxs txs fromAddr else txs)

/-- `NewTransactionsByPriceAndNonce(signer, txs)`: the loop, then `heap.Init(&heads)`. -/
def newTxsByPriceAndNonce (sender : Transaction → List UInt8)
    (txs : List (List UInt8 × List Transaction)) : Option TxsByPriceAndNonce :=
  (newLoop sender txs [] txs).map fun r => ⟨r.2, init (sliceInterface priceLess) r.1, sender⟩

namespace TxsByPriceAndNonce

/-- `Peek()`. -/
def peek (t : TxsByPriceAndNonce) : Option Transaction := t.heads[0]?

/-- `Pop()`: `heap.Pop(&t.heads)`. Go panics on no heads; the miner calls it after a `Peek()`
that returned a transaction. -/
def pop (t : TxsByPriceAndNonce) : TxsByPriceAndNonce :=
  { t with heads := (slicePop priceLess t.heads).2 }

/-- `Shift()`. On no heads Go panics at `t.heads[0]`; the model leaves `t` as it is. -/
def shift (t : TxsByPriceAndNonce) : TxsByPriceAndNonce :=
  match t.heads with
  | [] => t
  | head :: _ =>
    let acc := t.sender head
    match lookupTxs t.txs acc with
    | some (tx :: rest) =>
      { t with heads := fix (sliceInterface priceLess) (t.heads.set 0 tx) 0,
               txs := setTxs t.txs acc rest }
    | _ => t.pop

/-- The transactions still held: the heads and the tails. -/
def size (t : TxsByPriceAndNonce) : Nat := t.heads.length + tailsSize t.txs

theorem heads_of_peek {t : TxsByPriceAndNonce} {tx : Transaction} (h : t.peek = some tx) :
    ∃ hs, t.heads = tx :: hs := by
  unfold peek at h
  cases hheads : t.heads with
  | nil => rw [hheads] at h; cases h
  | cons head hs =>
    rw [hheads, List.getElem?_cons_zero, Option.some.injEq] at h
    exact ⟨hs, by rw [h]⟩

theorem shift_of_tail {t : TxsByPriceAndNonce} {head tx : Transaction}
    {hs rest : List Transaction} (hheads : t.heads = head :: hs)
    (htail : lookupTxs t.txs (t.sender head) = some (tx :: rest)) :
    t.shift = { t with heads := fix (sliceInterface priceLess) (t.heads.set 0 tx) 0,
                       txs := setTxs t.txs (t.sender head) rest } := by
  simp only [shift, hheads, htail]

theorem shift_of_no_tail {t : TxsByPriceAndNonce} {head : Transaction} {hs : List Transaction}
    (hheads : t.heads = head :: hs)
    (htail : ∀ tx rest, lookupTxs t.txs (t.sender head) ≠ some (tx :: rest)) :
    t.shift = t.pop := by
  -- simp discharges the tail branch with htail
  simp only [shift, hheads]

@[simp] theorem pop_sender (t : TxsByPriceAndNonce) : t.pop.sender = t.sender := rfl

@[simp] theorem pop_txs (t : TxsByPriceAndNonce) : t.pop.txs = t.txs := rfl

@[simp] theorem shift_sender (t : TxsByPriceAndNonce) : t.shift.sender = t.sender := by
  unfold shift
  split
  · rfl
  · dsimp only
    split <;> rfl

theorem size_pop_lt (t : TxsByPriceAndNonce) (hpos : t.heads ≠ []) : t.pop.size < t.size := by
  have htake : (slicePop priceLess t.heads).2.length ≤ t.heads.length - 1 :=
    List.length_take_le _ _
  have hp : 0 < t.heads.length := List.length_pos_of_ne_nil hpos
  unfold size
  rw [pop_txs]
  show (slicePop priceLess t.heads).2.length + tailsSize t.txs < _
  omega

/-- `Shift()` takes one transaction off what is held; the miner's loop stops. -/
theorem size_shift_lt (t : TxsByPriceAndNonce) (hpos : t.heads ≠ []) : t.shift.size < t.size := by
  obtain ⟨head, hs, hheads⟩ := List.exists_cons_of_ne_nil hpos
  by_cases htail : ∃ tx rest, lookupTxs t.txs (t.sender head) = some (tx :: rest)
  case pos =>
    obtain ⟨tx, rest, htail⟩ := htail
    have hsize := tailsSize_setTxs htail rest
    have hlen : (fix (sliceInterface priceLess) (t.heads.set 0 tx) 0).length = t.heads.length := by
      rw [fix_length, List.length_set]
    rw [shift_of_tail hheads htail]
    unfold size
    dsimp only
    simp only [List.length_cons] at hsize
    rw [hlen]
    omega
  case neg =>
    rw [shift_of_no_tail hheads (fun tx rest h => htail ⟨tx, rest, h⟩)]
    exact t.size_pop_lt hpos

/-- The miner's loop: take `Peek()` until it is `nil`, calling `Shift()` after each. -/
def drain (t : TxsByPriceAndNonce) : List Transaction :=
  match _hpeek : t.peek with
  | none => []
  | some tx => tx :: t.shift.drain
termination_by t.size
decreasing_by
  obtain ⟨hs, hheads⟩ := heads_of_peek _hpeek
  exact t.size_shift_lt (by rw [hheads]; exact List.cons_ne_nil _ _)

theorem drain_of_none {t : TxsByPriceAndNonce} (h : t.peek = none) : t.drain = [] := by
  rw [drain]
  split
  · rfl
  · rename_i tx heq
    rw [h] at heq
    cases heq

theorem drain_of_some {t : TxsByPriceAndNonce} {tx : Transaction} (h : t.peek = some tx) :
    t.drain = tx :: t.shift.drain := by
  rw [drain]
  split
  · rename_i heq
    rw [h] at heq
    cases heq
  · rename_i tx' heq
    rw [h, Option.some.injEq] at heq
    rw [heq]

end TxsByPriceAndNonce

/-! ## Filtering by a key

The account of a transaction is its key. In a list with no key twice the elements of one key are
at most one, so permuting the list does not change them; and two lists with the same elements
under every key are permutations of each other. -/

section Keys

variable {α β : Type} [DecidableEq β] (f : α → β)

theorem filter_key_eq_of_perm {l l' : List α} (hp : l.Perm l') (hnd : (l.map f).Nodup) (b : β) :
    l.filter (fun x => decide (f x = b)) = l'.filter (fun x => decide (f x = b)) := by
  have hp' := hp.filter (fun x => decide (f x = b))
  have hsub : ((l.filter fun x => decide (f x = b)).map f).Nodup :=
    hnd.sublist ((List.filter_sublist).map f)
  have hkey : ∀ x ∈ l.filter (fun x => decide (f x = b)), f x = b := by
    intro x hx
    simpa using (List.mem_filter.mp hx).2
  rcases hq : l.filter (fun x => decide (f x = b)) with _ | ⟨x, _ | ⟨y, rest⟩⟩
  case nil =>
    rw [hq] at hp'
    exact (List.nil_perm.mp hp').symm
  case cons.nil =>
    rw [hq] at hp'
    exact (List.perm_singleton.mp hp'.symm).symm
  case cons.cons =>
    rw [hq] at hsub hkey
    have hx := hkey x (by simp)
    have hy := hkey y (by simp)
    simp only [List.map_cons, List.nodup_cons, List.mem_cons, not_or] at hsub
    exact absurd (hx.trans hy.symm) hsub.1.1

theorem perm_of_filter_key_eq [DecidableEq α] {l l' : List α}
    (h : ∀ b, l.filter (fun x => decide (f x = b)) = l'.filter (fun x => decide (f x = b))) :
    l.Perm l' := by
  rw [List.perm_iff_count]
  intro x
  have hx := congrArg (List.count x) (h (f x))
  rwa [List.count_filter (by simp), List.count_filter (by simp)] at hx

/-- The first key of a list with no key twice has nothing else under it. -/
theorem filter_key_tail_nil {x : α} {xs : List α} (hnd : ((x :: xs).map f).Nodup) :
    xs.filter (fun y => decide (f y = f x)) = [] := by
  rw [List.filter_eq_nil_iff]
  intro y hy hfy
  simp only [List.map_cons, List.nodup_cons] at hnd
  exact hnd.1 (by simpa using ⟨y, hy, of_decide_eq_true hfy⟩)

theorem filter_key_ne_filter (l : List α) (c b : β) :
    (l.filter fun x => decide (f x ≠ c)).filter (fun x => decide (f x = b)) =
      if c = b then [] else l.filter fun x => decide (f x = b) := by
  rw [List.filter_filter]
  by_cases hcb : c = b
  · subst hcb
    rw [if_pos rfl, List.filter_eq_nil_iff]
    intro x _
    simp
  · rw [if_neg hcb]
    apply List.filter_congr
    intro x _
    by_cases hx : f x = b
    · simp [hx, Ne.symm hcb]
    · simp [hx]

end Keys

/-! ## What the calls keep -/

namespace TxsByPriceAndNonce

/-- What the calls keep. -/
structure Inv (t : TxsByPriceAndNonce) : Prop where
  /-- `heads` is a heap of prices. -/
  ordered : Ordered priceModel t.heads t.heads.length
  /-- No account has two heads. -/
  nodup : (t.heads.map t.sender).Nodup
  /-- The tail under a head's sender is of that sender. -/
  tails : ∀ h ∈ t.heads, ∀ x ∈ (lookupTxs t.txs (t.sender h)).getD [], t.sender x = t.sender h

/-- What is left of account `a`: its head, if it has one, and the tail under `a`. -/
def account (t : TxsByPriceAndNonce) (a : List UInt8) : List Transaction :=
  (t.heads.filter fun h => decide (t.sender h = a)).flatMap fun h => h :: (lookupTxs t.txs a).getD []

variable {t : TxsByPriceAndNonce} {head : Transaction} {hs : List Transaction}

/-- The account of the root is the root and its tail. -/
theorem account_head (hinv : t.Inv) (hheads : t.heads = head :: hs) {a : List UInt8}
    (ha : t.sender head = a) : t.account a = head :: (lookupTxs t.txs a).getD [] := by
  have hnd := hinv.nodup
  rw [hheads] at hnd
  have hnil := filter_key_tail_nil t.sender hnd
  rw [ha] at hnil
  unfold account
  rw [hheads, List.filter_cons_of_pos (by simpa using ha), hnil]
  simp

/-- Another account is the same in the heads after the root. -/
theorem account_of_ne (hheads : t.heads = head :: hs) {a : List UInt8} (ha : t.sender head ≠ a) :
    t.account a = (hs.filter fun h => decide (t.sender h = a)).flatMap
      fun h => h :: (lookupTxs t.txs a).getD [] := by
  unfold account
  rw [hheads, List.filter_cons_of_neg (by simpa using ha)]

theorem pop_heads (hinv : t.Inv) (hheads : t.heads = head :: hs) :
    t.pop.heads.Perm hs ∧ Ordered priceModel t.pop.heads t.pop.heads.length := by
  have hpos : 0 < t.heads.length := by rw [hheads]; simp
  have hspec : (slicePop priceLess t.heads).1 = t.heads[0]? ∧
      (slicePop priceLess t.heads).2.length = t.heads.length - 1 ∧
      Ordered priceModel (slicePop priceLess t.heads).2 (t.heads.length - 1) ∧
      ∃ x, t.heads[0]? = some x ∧ (x :: (slicePop priceLess t.heads).2).Perm t.heads :=
    slicePop_spec hpos hinv.ordered
  obtain ⟨-, hlen, hord, x, hx, hperm⟩ := hspec
  have hxh : x = head := by
    rw [hheads, List.getElem?_cons_zero, Option.some.injEq] at hx
    exact hx.symm
  rw [hxh] at hperm
  constructor
  · exact (hperm.trans (List.Perm.of_eq hheads)).cons_inv
  · show Ordered priceModel (slicePop priceLess t.heads).2 (slicePop priceLess t.heads).2.length
    rw [hlen]
    exact hord

theorem pop_inv (hinv : t.Inv) : t.pop.Inv := by
  cases hheads : t.heads with
  | nil =>
    have hnil : t.pop.heads = [] := by
      show (slicePop priceLess t.heads).2 = []
      rw [hheads]
      rfl
    constructor
    · intro c hc0 hcn
      rw [hnil] at hcn
      simp at hcn
    · rw [hnil]
      exact List.nodup_nil
    · intro h hh
      rw [hnil] at hh
      cases hh
  | cons head hs =>
    obtain ⟨hperm, hord⟩ := pop_heads hinv hheads
    have hnd := hinv.nodup
    rw [hheads, List.map_cons] at hnd
    constructor
    · exact hord
    · exact (hperm.map t.sender).nodup_iff.mpr (List.nodup_cons.mp hnd).2
    · intro h hh
      have hmem : h ∈ t.heads := by
        rw [hheads]
        exact List.mem_cons_of_mem head (hperm.mem_iff.mp hh)
      exact hinv.tails h hmem

/-- `Pop()` drops the root's account and leaves the others. -/
theorem account_pop (hinv : t.Inv) (hheads : t.heads = head :: hs) (a : List UInt8) :
    t.pop.account a = if t.sender head = a then [] else t.account a := by
  obtain ⟨hperm, -⟩ := pop_heads hinv hheads
  have hnd : (hs.map t.sender).Nodup := by
    have h := hinv.nodup
    rw [hheads, List.map_cons] at h
    exact (List.nodup_cons.mp h).2
  have hfilter := filter_key_eq_of_perm t.sender hperm.symm hnd a
  have hpop : t.pop.account a = (hs.filter fun h => decide (t.sender h = a)).flatMap
      fun h => h :: (lookupTxs t.txs a).getD [] := by
    unfold account
    rw [pop_sender, pop_txs, ← hfilter]
  rw [hpop]
  by_cases ha : t.sender head = a
  · have hnil := filter_key_tail_nil t.sender (hheads ▸ hinv.nodup)
    rw [ha] at hnil
    rw [if_pos ha, hnil, List.flatMap_nil]
  · rw [if_neg ha, account_of_ne hheads ha]

section Shift

variable {tx : Transaction} {rest : List Transaction}

theorem shift_heads (hinv : t.Inv) (hheads : t.heads = head :: hs)
    (htail : lookupTxs t.txs (t.sender head) = some (tx :: rest)) :
    t.shift.heads.Perm (tx :: hs) ∧ Ordered priceModel t.shift.heads t.shift.heads.length := by
  have hpos : 0 < t.heads.length := by rw [hheads]; simp
  have hspec := sliceFix_set_spec tx hpos hinv.ordered
  have hset : t.heads.set 0 tx = tx :: hs := by rw [hheads]; rfl
  rw [shift_of_tail hheads htail]
  constructor
  · rw [← hset]
    exact hspec.2
  · show Ordered priceModel (fix (sliceInterface priceLess) (t.heads.set 0 tx) 0)
      (fix (sliceInterface priceLess) (t.heads.set 0 tx) 0).length
    rw [fix_length, List.length_set]
    exact hspec.1

/-- The next transaction of the root's account is of that account. -/
theorem sender_next (hinv : t.Inv) (hheads : t.heads = head :: hs)
    (htail : lookupTxs t.txs (t.sender head) = some (tx :: rest)) :
    t.sender tx = t.sender head := by
  apply hinv.tails head (by rw [hheads]; exact List.mem_cons_self)
  rw [htail]
  exact List.mem_cons_self

theorem shift_inv_of_tail (hinv : t.Inv) (hheads : t.heads = head :: hs)
    (htail : lookupTxs t.txs (t.sender head) = some (tx :: rest)) : t.shift.Inv := by
  obtain ⟨hperm, hord⟩ := shift_heads hinv hheads htail
  have htx := sender_next hinv hheads htail
  have hnd := hinv.nodup
  rw [hheads, List.map_cons] at hnd
  have hnd' : ((tx :: hs).map t.sender).Nodup := by
    rw [List.map_cons, htx]
    exact hnd
  rw [shift_of_tail hheads htail] at hperm hord ⊢
  constructor
  · exact hord
  · exact (hperm.map t.sender).nodup_iff.mpr hnd'
  · intro h hh x hx
    simp only at hx ⊢
    rcases List.mem_cons.mp (hperm.mem_iff.mp hh) with heq | hmem
    -- the new head: its tail is the rest of the old tail
    · rw [heq, htx, lookupTxs_setTxs_self] at hx
      rw [heq]
      rw [htx]
      apply hinv.tails head (by rw [hheads]; exact List.mem_cons_self)
      rw [htail]
      exact List.mem_cons_of_mem tx hx
    -- another head: its account is not the one assigned
    · have hne : t.sender h ≠ t.sender head := by
        intro heq
        exact (List.nodup_cons.mp hnd).1 (heq ▸ List.mem_map_of_mem hmem)
      rw [lookupTxs_setTxs_ne _ _ hne] at hx
      exact hinv.tails h (by rw [hheads]; exact List.mem_cons_of_mem head hmem) x hx

end Shift

theorem shift_inv (hinv : t.Inv) : t.shift.Inv := by
  cases hheads : t.heads with
  | nil =>
    have hshift : t.shift = t := by
      unfold shift
      rw [hheads]
    rw [hshift]
    exact hinv
  | cons head hs =>
    by_cases htail : ∃ tx rest, lookupTxs t.txs (t.sender head) = some (tx :: rest)
    case pos =>
      obtain ⟨tx, rest, htail⟩ := htail
      exact shift_inv_of_tail hinv hheads htail
    case neg =>
      rw [shift_of_no_tail hheads (fun tx rest h => htail ⟨tx, rest, h⟩)]
      exact pop_inv hinv

/-- `Shift()` takes the root off its account and leaves the others. -/
theorem account_shift (hinv : t.Inv) (hheads : t.heads = head :: hs) (a : List UInt8) :
    t.shift.account a = if t.sender head = a then (t.account a).tail else t.account a := by
  by_cases htail : ∃ tx rest, lookupTxs t.txs (t.sender head) = some (tx :: rest)
  case pos =>
    obtain ⟨tx, rest, htail⟩ := htail
    obtain ⟨hperm, -⟩ := shift_heads hinv hheads htail
    have htx := sender_next hinv hheads htail
    have hnd := (shift_inv_of_tail hinv hheads htail).nodup
    rw [shift_sender] at hnd
    have hfilter := filter_key_eq_of_perm t.sender hperm hnd a
    have hshift : t.shift.account a = ((tx :: hs).filter fun h => decide (t.sender h = a)).flatMap
        fun h => h :: (lookupTxs (setTxs t.txs (t.sender head) rest) a).getD [] := by
      unfold account
      rw [shift_sender, hfilter, shift_of_tail hheads htail]
    rw [hshift]
    by_cases ha : t.sender head = a
    -- the root's account: its next transaction is the new head
    · have hnil := filter_key_tail_nil t.sender (hheads ▸ hinv.nodup)
      rw [ha] at hnil htail
      rw [if_pos ha, account_head hinv hheads ha, List.filter_cons_of_pos (by simpa [htx] using ha),
        hnil, ha, lookupTxs_setTxs_self, htail]
      simp
    -- another account: its head and its tail are where they were
    · rw [if_neg ha, account_of_ne hheads ha, List.filter_cons_of_neg (by simpa [htx] using ha),
        lookupTxs_setTxs_ne _ _ (Ne.symm ha)]
  case neg =>
    rw [shift_of_no_tail hheads (fun tx rest h => htail ⟨tx, rest, h⟩), account_pop hinv hheads]
    by_cases ha : t.sender head = a
    · have hnone : (lookupTxs t.txs a).getD [] = [] := by
        rw [← ha]
        cases hl : lookupTxs t.txs (t.sender head) with
        | none => rfl
        | some l =>
          cases l with
          | nil => rfl
          | cons tx rest => exact absurd ⟨tx, rest, hl⟩ htail
      rw [if_pos ha, if_pos ha, account_head hinv hheads ha, hnone]
      rfl
    · rw [if_neg ha, if_neg ha]

/-! ## The miner's loop -/

/-- The loop emits each account's transactions as they are left, in their order. -/
theorem drain_filter (t : TxsByPriceAndNonce) (hinv : t.Inv) (a : List UInt8) :
    t.drain.filter (fun x => decide (t.sender x = a)) = t.account a := by
  induction t using drain.induct with
  | case1 t hpeek =>
    have hnil : t.heads = [] := by
      unfold peek at hpeek
      cases hheads : t.heads with
      | nil => rfl
      | cons head hs => rw [hheads] at hpeek; cases hpeek
    rw [drain_of_none hpeek]
    unfold account
    rw [hnil]
    rfl
  | case2 t tx hpeek ih =>
    obtain ⟨hs, hheads⟩ := heads_of_peek hpeek
    have ih' := ih (shift_inv hinv)
    rw [shift_sender, account_shift hinv hheads a] at ih'
    rw [drain_of_some hpeek, List.filter_cons]
    by_cases ha : t.sender tx = a
    · rw [if_pos (by simpa using ha), ih', if_pos ha, account_head hinv hheads ha]
      rfl
    · rw [if_neg (by simpa using ha), ih', if_neg ha]

/-- The root has the highest price of the heads. -/
theorem peek_price_max (hinv : t.Inv) {tx : Transaction} (hpeek : t.peek = some tx) :
    ∀ h ∈ t.heads, h.gasPrice ≤ tx.gasPrice :=
  fun _ hh => priceHeap_root_max hinv.ordered hpeek hh

/-- After `Pop()` the loop emits what it would have, but for the root's account. -/
theorem drain_pop_perm (hinv : t.Inv) {tx : Transaction} (hpeek : t.peek = some tx) :
    t.pop.drain.Perm (t.drain.filter fun x => decide (t.sender x ≠ t.sender tx)) := by
  obtain ⟨hs, hheads⟩ := heads_of_peek hpeek
  apply perm_of_filter_key_eq t.sender
  intro a
  have hpop := drain_filter t.pop (pop_inv hinv) a
  rw [pop_sender, account_pop hinv hheads a] at hpop
  rw [hpop, filter_key_ne_filter, drain_filter t hinv a]

end TxsByPriceAndNonce

/-! ## The constructor -/

/-- A map as the miner builds it: no key twice, and every list nonempty and of its key. -/
structure PendingMap (sender : Transaction → List UInt8)
    (input : List (List UInt8 × List Transaction)) : Prop where
  keys : (input.map Prod.fst).Nodup
  nonempty : ∀ e ∈ input, e.2 ≠ []
  senders : ∀ e ∈ input, ∀ tx ∈ e.2, sender tx = e.1

/-- Each entry's first transaction. -/
def headsOf (input : List (List UInt8 × List Transaction)) : List Transaction :=
  input.flatMap fun e => e.2.take 1

/-- Each entry's transactions after the first. -/
def tailsOf (input : List (List UInt8 × List Transaction)) : List (List UInt8 × List Transaction) :=
  input.map fun e => (e.1, e.2.drop 1)

section Constructor

variable {sender : Transaction → List UInt8}

/-- The loop takes off each entry's head and leaves its tail in place; `done` are the entries
already taken. -/
theorem newLoop_spec (entries : List (List UInt8 × List Transaction)) :
    ∀ (heads : List Transaction) (done : List (List UInt8 × List Transaction)),
      ((done ++ entries).map Prod.fst).Nodup → (∀ e ∈ entries, e.2 ≠ []) →
      (∀ e ∈ entries, ∀ tx ∈ e.2, sender tx = e.1) →
      newLoop sender entries heads (done ++ entries) =
        some (heads ++ headsOf entries, done ++ tailsOf entries) := by
  induction entries with
  | nil =>
    intro heads done _ _ _
    simp [newLoop, headsOf, tailsOf]
  | cons e entries ih =>
    intro heads done hkeys hne hsend
    obtain ⟨a, l⟩ := e
    cases l with
    | nil => exact absurd rfl (hne _ List.mem_cons_self)
    | cons tx rest =>
      have hacc : sender tx = a := hsend _ List.mem_cons_self tx List.mem_cons_self
      have hfresh : a ∉ done.map Prod.fst := by
        rw [List.map_append, List.nodup_append] at hkeys
        intro ha
        exact hkeys.2.2 a ha a (by simp) rfl
      have hset : setTxs (done ++ (a, tx :: rest) :: entries) a rest =
          (done ++ [(a, rest)]) ++ entries := by
        rw [setTxs_append hfresh, setTxs, if_pos rfl]
        simp
      have hkeys' : (((done ++ [(a, rest)]) ++ entries).map Prod.fst).Nodup := by
        simpa using hkeys
      have hrec := ih (heads ++ [tx]) (done ++ [(a, rest)]) hkeys'
        (fun e he => hne e (List.mem_cons_of_mem _ he))
        (fun e he => hsend e (List.mem_cons_of_mem _ he))
      simp only [newLoop, hacc, ne_eq, not_true_eq_false, if_false]
      rw [hset, hrec]
      simp [headsOf, tailsOf]

@[simp] theorem headsOf_cons (a : List UInt8) (tx : Transaction) (rest : List Transaction)
    (l : List (List UInt8 × List Transaction)) :
    headsOf ((a, tx :: rest) :: l) = tx :: headsOf l := by
  simp [headsOf]

theorem lookupTxs_tailsOf (input : List (List UInt8 × List Transaction)) (a : List UInt8) :
    lookupTxs (tailsOf input) a = (lookupTxs input a).map (List.drop 1) := by
  induction input with
  | nil => rfl
  | cons e input ih =>
    have hcons : tailsOf (e :: input) = (e.1, e.2.drop 1) :: tailsOf input := rfl
    rw [hcons, lookupTxs_cons, lookupTxs_cons]
    by_cases he : e.1 = a
    · rw [if_pos he, if_pos he]
      rfl
    · rw [if_neg he, if_neg he, ih]

variable {input : List (List UInt8 × List Transaction)}

/-- The heads the loop takes are one of each key. -/
theorem headsOf_map_sender (hne : ∀ e ∈ input, e.2 ≠ [])
    (hsend : ∀ e ∈ input, ∀ tx ∈ e.2, sender tx = e.1) :
    (headsOf input).map sender = input.map Prod.fst := by
  induction input with
  | nil => rfl
  | cons e input ih =>
    obtain ⟨a, _ | ⟨tx, rest⟩⟩ := e
    · exact absurd rfl (hne _ List.mem_cons_self)
    · have hacc : sender tx = a := hsend _ List.mem_cons_self tx List.mem_cons_self
      have hrec := ih (fun e he => hne e (List.mem_cons_of_mem _ he))
        (fun e he => hsend e (List.mem_cons_of_mem _ he))
      rw [headsOf_cons, List.map_cons, hrec, hacc]
      rfl

/-- The head the loop takes of key `a` is the first transaction of `a`. -/
theorem headsOf_filter (hin : PendingMap sender input) (a : List UInt8) :
    (headsOf input).filter (fun h => decide (sender h = a)) =
      ((lookupTxs input a).map (List.take 1)).getD [] := by
  induction input with
  | nil => rfl
  | cons e input ih =>
    have hin' : PendingMap sender input :=
      ⟨(List.nodup_cons.mp hin.keys).2, fun e he => hin.nonempty e (List.mem_cons_of_mem _ he),
        fun e he => hin.senders e (List.mem_cons_of_mem _ he)⟩
    obtain ⟨b, _ | ⟨tx, rest⟩⟩ := e
    · exact absurd rfl (hin.nonempty _ List.mem_cons_self)
    · have hacc : sender tx = b := hin.senders _ List.mem_cons_self tx List.mem_cons_self
      rw [headsOf_cons, List.filter_cons, lookupTxs_cons, ih hin']
      by_cases hb : b = a
      -- the key itself: no later entry has it
      · subst hb
        have hnone : lookupTxs input b = none :=
          lookupTxs_eq_none (List.nodup_cons.mp hin.keys).1
        rw [if_pos (by simpa using hacc), if_pos rfl, hnone]
        rfl
      · rw [if_neg (by simpa [hacc] using hb), if_neg hb]

/-- The transactions of key `a` in the whole map are those under `a`. -/
theorem input_filter (hin : PendingMap sender input) (a : List UInt8) :
    (input.flatMap Prod.snd).filter (fun x => decide (sender x = a)) = (lookupTxs input a).getD [] := by
  induction input with
  | nil => rfl
  | cons e input ih =>
    have hin' : PendingMap sender input :=
      ⟨(List.nodup_cons.mp hin.keys).2, fun e he => hin.nonempty e (List.mem_cons_of_mem _ he),
        fun e he => hin.senders e (List.mem_cons_of_mem _ he)⟩
    have hsend : ∀ x ∈ e.2, sender x = e.1 := hin.senders e List.mem_cons_self
    rw [List.flatMap_cons, List.filter_append, lookupTxs_cons, ih hin']
    by_cases he : e.1 = a
    · have hnone : lookupTxs input a = none := by
        rw [← he]
        exact lookupTxs_eq_none (List.nodup_cons.mp hin.keys).1
      have hall : e.2.filter (fun x => decide (sender x = a)) = e.2 :=
        List.filter_eq_self.mpr fun x hx => by simpa [he] using hsend x hx
      rw [if_pos he, hnone, hall]
      simp
    · have hnil : e.2.filter (fun x => decide (sender x = a)) = [] :=
        List.filter_eq_nil_iff.mpr fun x hx => by simpa [hsend x hx] using he
      rw [if_neg he, hnil, List.nil_append]

/-- The constructed state, when every list is nonempty and of its key. -/
def newState (sender : Transaction → List UInt8) (input : List (List UInt8 × List Transaction)) :
    TxsByPriceAndNonce :=
  ⟨tailsOf input, init (sliceInterface priceLess) (headsOf input), sender⟩

theorem new_spec (hin : PendingMap sender input) :
    newTxsByPriceAndNonce sender input = some (newState sender input) := by
  have h := @newLoop_spec sender input [] [] (by simpa using hin.keys) hin.nonempty
    hin.senders
  unfold newTxsByPriceAndNonce
  rw [List.nil_append] at h
  rw [h]
  rfl

theorem newState_heads_perm (sender : Transaction → List UInt8)
    (input : List (List UInt8 × List Transaction)) :
    (newState sender input).heads.Perm (headsOf input) ∧
      Ordered priceModel (newState sender input).heads (newState sender input).heads.length := by
  have h : Ordered priceModel (init (sliceInterface priceLess) (headsOf input))
        (headsOf input).length ∧
      (init (sliceInterface priceLess) (headsOf input)).Perm (headsOf input) := sliceInit_spec _
  refine ⟨h.2, ?_⟩
  show Ordered priceModel (init (sliceInterface priceLess) (headsOf input))
    (init (sliceInterface priceLess) (headsOf input)).length
  rw [h.2.length_eq]
  exact h.1

theorem new_inv (hin : PendingMap sender input) : (newState sender input).Inv := by
  obtain ⟨hperm, hord⟩ := newState_heads_perm sender input
  constructor
  · exact hord
  · apply (hperm.map sender).nodup_iff.mpr
    rw [headsOf_map_sender hin.nonempty hin.senders]
    exact hin.keys
  · intro h _ x hx
    change x ∈ (lookupTxs (tailsOf input) (sender h)).getD [] at hx
    change sender x = sender h
    rw [lookupTxs_tailsOf] at hx
    cases hl : lookupTxs input (sender h) with
    | none => rw [hl] at hx; cases hx
    | some l =>
      rw [hl] at hx
      exact hin.senders _ (mem_of_lookupTxs hl) x (List.mem_of_mem_drop hx)

/-- What is left of each account at the start is all of it. -/
theorem account_new (hin : PendingMap sender input) (a : List UInt8) :
    (newState sender input).account a = (lookupTxs input a).getD [] := by
  obtain ⟨hperm, -⟩ := newState_heads_perm sender input
  have hnd := (new_inv hin).nodup
  have hfilter := filter_key_eq_of_perm sender hperm hnd a
  unfold TxsByPriceAndNonce.account
  change ((newState sender input).heads.filter fun h => decide (sender h = a)).flatMap
    (fun h => h :: (lookupTxs (tailsOf input) a).getD []) = _
  rw [hfilter, headsOf_filter hin, lookupTxs_tailsOf]
  cases hl : lookupTxs input a with
  | none => rfl
  | some l =>
    cases l with
    | nil => exact absurd rfl (hin.nonempty _ (mem_of_lookupTxs hl))
    | cons tx rest => simp

end Constructor

/-! ## Runs of the miner's calls -/

/-- What the miner calls after a `Peek()`. -/
inductive PriceNonceCall where
  | shift
  | pop
  deriving DecidableEq, Repr

namespace TxsByPriceAndNonce

/-- One call. -/
def call (t : TxsByPriceAndNonce) : PriceNonceCall → TxsByPriceAndNonce
  | .shift => t.shift
  | .pop => t.pop

/-- The calls one after another. -/
def run (t : TxsByPriceAndNonce) (calls : List PriceNonceCall) : TxsByPriceAndNonce :=
  calls.foldl call t

theorem call_inv {t : TxsByPriceAndNonce} (hinv : t.Inv) (c : PriceNonceCall) : (t.call c).Inv := by
  cases c with
  | shift => exact shift_inv hinv
  | pop => exact pop_inv hinv

@[simp] theorem call_sender (t : TxsByPriceAndNonce) (c : PriceNonceCall) :
    (t.call c).sender = t.sender := by
  cases c with
  | shift => exact shift_sender t
  | pop => rfl

theorem run_inv (calls : List PriceNonceCall) :
    ∀ t : TxsByPriceAndNonce, t.Inv → (t.run calls).Inv ∧ (t.run calls).sender = t.sender := by
  induction calls with
  | nil => intro t hinv; exact ⟨hinv, rfl⟩
  | cons c calls ih =>
    intro t hinv
    obtain ⟨hrun, hsend⟩ := ih (t.call c) (call_inv hinv c)
    exact ⟨hrun, hsend.trans (call_sender t c)⟩

end TxsByPriceAndNonce

theorem txsByPriceAndNonce_order (sender : Transaction → List UInt8)
    (input : List (List UInt8 × List Transaction)) (hin : PendingMap sender input) :
    ∃ t, newTxsByPriceAndNonce sender input = some t ∧
      t.drain.Perm (input.flatMap Prod.snd) ∧
      (∀ a, t.drain.filter (fun tx => decide (sender tx = a)) = (lookupTxs input a).getD []) ∧
      ∀ calls tx, (t.run calls).peek = some tx →
        (∀ h ∈ (t.run calls).heads, h.gasPrice ≤ tx.gasPrice) ∧
        (t.run calls).pop.drain.Perm
          ((t.run calls).drain.filter fun x => decide (sender x ≠ sender tx)) := by
  have hinv := new_inv hin
  have hfilter : ∀ a, (newState sender input).drain.filter (fun tx => decide (sender tx = a)) =
      (lookupTxs input a).getD [] := by
    intro a
    rw [← account_new hin a]
    exact (newState sender input).drain_filter hinv a
  refine ⟨newState sender input, new_spec hin, ?_, hfilter, ?_⟩
  · apply perm_of_filter_key_eq sender
    intro a
    rw [hfilter a, input_filter hin a]
  · intro calls tx hpeek
    obtain ⟨hrun, hsend⟩ := (newState sender input).run_inv calls hinv
    constructor
    · exact TxsByPriceAndNonce.peek_price_max hrun hpeek
    · have hpop := TxsByPriceAndNonce.drain_pop_perm hrun hpeek
      rw [hsend] at hpop
      exact hpop

/-- A second transaction of another account, at a higher price. -/
def samplePricier : Transaction := ⟨⟨0, 5, 21000, none, 0, [], 27, 1, 1⟩, none⟩

theorem txsByPriceAndNonce_order_two :
    ∃ t, newTxsByPriceAndNonce (fun tx => [UInt8.ofNat tx.data.price.toNat])
        [([1], [sampleTx]), ([5], [samplePricier])] = some t ∧
      t.drain.Perm ([([1], [sampleTx]), ([5], [samplePricier])].flatMap Prod.snd) ∧
      (∀ a, t.drain.filter (fun tx => decide ([UInt8.ofNat tx.data.price.toNat] = a)) =
        (lookupTxs [([1], [sampleTx]), ([5], [samplePricier])] a).getD []) ∧
      ∀ calls tx, (t.run calls).peek = some tx →
        (∀ h ∈ (t.run calls).heads, h.gasPrice ≤ tx.gasPrice) ∧
        (t.run calls).pop.drain.Perm ((t.run calls).drain.filter
          fun x => decide ([UInt8.ofNat x.data.price.toNat] ≠ [UInt8.ofNat tx.data.price.toNat])) :=
  txsByPriceAndNonce_order _ _ ⟨by decide, by decide, by decide⟩

/-- An account with no transactions makes the constructor panic at `accTxs[0]`. -/
theorem newTxsByPriceAndNonce_empty_panics :
    newTxsByPriceAndNonce (fun _ => [0]) [([0], [])] = none := by
  decide

end GoMetadium.Core
