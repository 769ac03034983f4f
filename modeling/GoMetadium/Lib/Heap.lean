import Mathlib

set_option autoImplicit false

/-! # Go's `container/heap`

`container/heap` works on any `heap.Interface`: a length, `Less(i, j)` and `Swap(i, j)` on a
state the caller owns, and the caller's `Push` and `Pop` at the end of the array. `Push`
appends and sifts up, `Pop` swaps the root to the end and sifts down before the caller's `Pop`
takes it, `Remove(i)` does the same from position `i` and sifts whichever way is needed, `Fix`
sifts an element whose key changed, and `Init` sifts down every inner position.

The order is read through a `Model`: the item at each position, a key into a linear order that
`Less` compares, and a predicate `Good` on states under which `Swap` exchanges two items and
nothing else. Every operation is a sequence of swaps inside the array (`Swaps`), so what a swap
keeps the operation keeps; and each keeps the array a heap, the key of every parent at most
that of its children (`up_ordered`, `popDown_ordered`, `removeDown_ordered`, `fix_ordered`,
`init_ordered`), from which the root has the least key (`Ordered.root_le`). The invariants of the
two sifts are `UpOrder` and `DownOrder`.

The last section instantiates this for a Go slice whose `Swap` exchanges two elements and whose
`Push` and `Pop` work at its end (`sliceModel`): there `heap.Push`, `heap.Pop`, `heap.Remove`,
`heap.Init` and `heap.Fix` keep a heap of the same elements, and `Pop` returns the first.
Nothing here mentions the program.
-/

namespace GoHeap

/-- `heap.Interface` by its methods `Len`, `Less` and `Swap` on a state `σ`. -/
structure Interface (σ : Type) where
  len : σ → Nat
  less : σ → Nat → Nat → Bool
  swap : σ → Nat → Nat → σ

/-- The parent of position `c` in the array's binary tree; `parent 0 = 0`, as Go's `(0-1)/2`. -/
def parent (c : Nat) : Nat := (c - 1) / 2

/-- `c` is a child of `p`: position 0 is no position's child. -/
def IsChild (c p : Nat) : Prop := 0 < c ∧ parent c = p

section Operations

variable {σ : Type} (h : Interface σ)

/-- `up(h, j)`: swap the element at `j` with its parent while it is less. -/
def up (s : σ) (j : Nat) : σ :=
  if parent j = j ∨ !h.less s j (parent j) then s else up (h.swap s (parent j) j) (parent j)
termination_by j
decreasing_by
  unfold parent at *
  omega

/-- The child of `i` that `down` compares with `i`: the right one `j2` if it is in the array and
less than the left one `j1`. -/
def lesserChild (n : Nat) (s : σ) (i : Nat) : Nat :=
  let j1 := 2 * i + 1
  if j1 + 1 < n ∧ h.less s (j1 + 1) j1 then j1 + 1 else j1

theorem lesserChild_gt (n : Nat) (s : σ) (i : Nat) : i < lesserChild h n s i := by
  unfold lesserChild
  dsimp only
  split <;> omega

/-- The loop of `down(h, i0, n)` at position `i`: swap the element with its lesser child while
that child is less. It returns the state and the position the element stopped at. -/
def downFrom (n : Nat) (s : σ) (i : Nat) : σ × Nat :=
  if 2 * i + 1 ≥ n then (s, i)
  else
    let j := lesserChild h n s i
    if !h.less s j i then (s, i) else downFrom n (h.swap s i j) j
termination_by n - i
decreasing_by
  have := lesserChild_gt h n s i
  omega

/-- `down(h, i0, n)`: the state, and whether the element moved. -/
def down (s : σ) (i0 n : Nat) : σ × Bool :=
  ((downFrom h n s i0).1, decide ((downFrom h n s i0).2 > i0))

/-- `heap.Init(h)`: `down` at every position from `n/2 - 1` to `0`. -/
def init (s : σ) : σ :=
  (List.range (h.len s / 2)).reverse.foldl (fun s i => (down h s i (h.len s)).1) s

/-- `heap.Push(h, x)` once `h.Push(x)` has appended the element: `up` from the last position. -/
def pushUp (s : σ) : σ := up h s (h.len s - 1)

/-- `heap.Pop(h)` before it calls `h.Pop()`: the root swapped to the last position and sifted
down on the others. -/
def popDown (s : σ) : σ := (down h (h.swap s 0 (h.len s - 1)) 0 (h.len s - 1)).1

/-- `heap.Remove(h, i)` before it calls `h.Pop()`. -/
def removeDown (s : σ) (i : Nat) : σ :=
  if h.len s - 1 ≠ i then
    if !(down h (h.swap s i (h.len s - 1)) i (h.len s - 1)).2 then
      up h (down h (h.swap s i (h.len s - 1)) i (h.len s - 1)).1 i
    else (down h (h.swap s i (h.len s - 1)) i (h.len s - 1)).1
  else s

/-- `heap.Fix(h, i)`. -/
def fix (s : σ) (i : Nat) : σ :=
  if !(down h s i (h.len s)).2 then up h (down h s i (h.len s)).1 i else (down h s i (h.len s)).1

end Operations

/-! ## Positions -/

theorem parent_lt {c : Nat} (h : 0 < c) : parent c < c := by
  unfold parent
  omega

theorem parent_eq_self_iff {c : Nat} : parent c = c ↔ c = 0 := by
  unfold parent
  omega

theorem isChild_left (p : Nat) : IsChild (2 * p + 1) p := by
  unfold IsChild parent
  omega

theorem isChild_right (p : Nat) : IsChild (2 * p + 1 + 1) p := by
  unfold IsChild parent
  omega

theorem IsChild.range {c p : Nat} (h : IsChild c p) : c = 2 * p + 1 ∨ c = 2 * p + 1 + 1 := by
  unfold IsChild parent at h
  omega

theorem IsChild.gt {c p : Nat} (h : IsChild c p) : p < c := by
  unfold IsChild parent at h
  omega

/-! ## Models and swaps -/

/-- How a state is read as an array of items with keys. On a `Good` state, `Swap` keeps the
length and `Good` and exchanges the two items, and `Less` compares keys. -/
structure Model {σ : Type} (h : Interface σ) (α κ : Type) [LinearOrder κ] where
  item : σ → Nat → α
  key : α → κ
  Good : σ → Prop
  good_swap : ∀ {s i j}, Good s → i < h.len s → j < h.len s → Good (h.swap s i j)
  len_swap : ∀ {s i j}, Good s → i < h.len s → j < h.len s → h.len (h.swap s i j) = h.len s
  item_swap : ∀ {s i j} (k : Nat), Good s → i < h.len s → j < h.len s →
    item (h.swap s i j) k = if k = i then item s j else if k = j then item s i else item s k
  less_eq : ∀ {s i j}, Good s → i < h.len s → j < h.len s →
    h.less s i j = decide (key (item s i) < key (item s j))

variable {σ α κ : Type} [LinearOrder κ] {h : Interface σ} (M : Model h α κ)

namespace Model

variable {M}

theorem item_swap_left {s : σ} {i j : Nat} (hs : M.Good s) (hi : i < h.len s) (hj : j < h.len s) :
    M.item (h.swap s i j) i = M.item s j := by
  rw [M.item_swap i hs hi hj, if_pos rfl]

theorem item_swap_right {s : σ} {i j : Nat} (hs : M.Good s) (hi : i < h.len s) (hj : j < h.len s) :
    M.item (h.swap s i j) j = M.item s i := by
  rw [M.item_swap j hs hi hj]
  by_cases hji : j = i
  · rw [if_pos hji, hji]
  · rw [if_neg hji, if_pos rfl]

theorem item_swap_other {s : σ} {i j k : Nat} (hs : M.Good s) (hi : i < h.len s) (hj : j < h.len s)
    (hki : k ≠ i) (hkj : k ≠ j) : M.item (h.swap s i j) k = M.item s k := by
  rw [M.item_swap k hs hi hj, if_neg hki, if_neg hkj]

end Model

/-- `s'` is reached from `s` by swaps of positions in `[lo, n)`, on `Good` states of length at
least `n`. -/
inductive Swaps (lo n : Nat) : σ → σ → Prop
  | refl (s : σ) : Swaps lo n s s
  | swap {s s' : σ} {i j : Nat} : M.Good s → n ≤ h.len s → lo ≤ i → i < n → lo ≤ j → j < n →
      Swaps lo n (h.swap s i j) s' → Swaps lo n s s'

namespace Swaps

variable {M} {lo n : Nat}

theorem trans {s t u : σ} (hst : Swaps M lo n s t) (htu : Swaps M lo n t u) : Swaps M lo n s u := by
  induction hst with
  | refl => exact htu
  | swap hs hn hli hi hlj hj _ ih => exact .swap hs hn hli hi hlj hj (ih htu)

theorem single {s : σ} {i j : Nat} (hs : M.Good s) (hn : n ≤ h.len s) (hli : lo ≤ i) (hi : i < n)
    (hlj : lo ≤ j) (hj : j < n) : Swaps M lo n s (h.swap s i j) :=
  .swap hs hn hli hi hlj hj (.refl _)

/-- Swaps in a range are swaps in a wider one, as long as the state is long enough. -/
theorem mono {lo' m : Nat} {s t : σ} (hst : Swaps M lo n s t) (hlo : lo' ≤ lo) (hnm : n ≤ m)
    (hm : m ≤ h.len s) : Swaps M lo' m s t := by
  induction hst with
  | refl => exact .refl _
  | @swap s _ i j hs hn hli hi hlj hj _ ih =>
    have hlen : h.len (h.swap s i j) = h.len s := M.len_swap hs (by omega) (by omega)
    exact .swap hs hm (by omega) (by omega) (by omega) (by omega) (ih (by rw [hlen]; exact hm))

/-- What every swap keeps, a run of swaps keeps: `Good`, the length, and the items outside the
range. -/
theorem good_len_frame {s t : σ} (hst : Swaps M lo n s t) (hs : M.Good s) :
    M.Good t ∧ h.len t = h.len s ∧ ∀ k, (k < lo ∨ n ≤ k) → M.item t k = M.item s k := by
  induction hst with
  | refl => exact ⟨hs, rfl, fun _ _ => rfl⟩
  | swap hs' hn hli hi hlj hj _ ih =>
    obtain ⟨hgood, hlen, hframe⟩ := ih (M.good_swap hs' (by omega) (by omega))
    refine ⟨hgood, by rw [hlen, M.len_swap hs' (by omega) (by omega)], fun k hk => ?_⟩
    rw [hframe k hk, Model.item_swap_other hs' (by omega) (by omega) (by omega) (by omega)]

theorem good {s t : σ} (hst : Swaps M lo n s t) (hs : M.Good s) : M.Good t :=
  (hst.good_len_frame hs).1

theorem len_eq {s t : σ} (hst : Swaps M lo n s t) (hs : M.Good s) : h.len t = h.len s :=
  (hst.good_len_frame hs).2.1

theorem item_below {s t : σ} (hst : Swaps M lo n s t) (hs : M.Good s) {k : Nat} (hk : k < lo) :
    M.item t k = M.item s k :=
  (hst.good_len_frame hs).2.2 k (Or.inl hk)

theorem item_above {s t : σ} (hst : Swaps M lo n s t) (hs : M.Good s) {k : Nat} (hk : n ≤ k) :
    M.item t k = M.item s k :=
  (hst.good_len_frame hs).2.2 k (Or.inr hk)

/-- The items below `n`, in order of position. -/
def itemsBelow (M : Model h α κ) (s : σ) (n : Nat) : List α := (List.range n).map (M.item s)

/-- A swap below `n` permutes the items below `n`. -/
theorem itemsBelow_swap_perm {s : σ} {i j : Nat} (hs : M.Good s) (hn : n ≤ h.len s) (hi : i < n)
    (hj : j < n) : (itemsBelow M (h.swap s i j) n).Perm (itemsBelow M s n) := by
  have hitem : ∀ k, M.item (h.swap s i j) k = M.item s (Equiv.swap i j k) := by
    intro k
    rw [M.item_swap k hs (by omega) (by omega), Equiv.swap_apply_def]
    split_ifs <;> rfl
  have hrange : ((List.range n).map (Equiv.swap i j)).Perm (List.range n) := by
    apply (List.perm_ext_iff_of_nodup ((List.nodup_range).map (Equiv.swap i j).injective)
      List.nodup_range).mpr
    intro k
    simp only [List.mem_map, List.mem_range]
    constructor
    · rintro ⟨m, hm, rfl⟩
      rw [Equiv.swap_apply_def]
      split_ifs <;> omega
    · intro hk
      refine ⟨Equiv.swap i j k, ?_, Equiv.swap_apply_self i j k⟩
      rw [Equiv.swap_apply_def]
      split_ifs <;> omega
  unfold itemsBelow
  rw [show (List.range n).map (M.item (h.swap s i j)) =
      ((List.range n).map (Equiv.swap i j)).map (M.item s) by
    rw [List.map_map]
    exact List.map_congr_left (fun k _ => hitem k)]
  exact hrange.map _

/-- A run of swaps below `n` permutes the items below `n`. -/
theorem perm {s t : σ} (hst : Swaps M lo n s t) : (itemsBelow M t n).Perm (itemsBelow M s n) := by
  induction hst with
  | refl => exact List.Perm.refl _
  | swap hs hn _ hi _ hj _ ih => exact ih.trans (itemsBelow_swap_perm hs hn hi hj)

end Swaps

/-! ## Heap order -/

/-- The key of the item at position `p`. -/
def keyAt (s : σ) (p : Nat) : κ := M.key (M.item s p)

/-- Position `c` is in order with its parent. -/
def InOrder (s : σ) (c : Nat) : Prop := keyAt M s (parent c) ≤ keyAt M s c

/-- The heap order on the first `n` positions, for the children of the parents from `lo` on;
`Init` orders the array from the back. -/
def OrderedFrom (s : σ) (n lo : Nat) : Prop :=
  ∀ c, 0 < c → c < n → lo ≤ parent c → InOrder M s c

/-- The first `n` positions are a heap. -/
def Ordered (s : σ) (n : Nat) : Prop := OrderedFrom M s n 0

/-- The order of `OrderedFrom`, except that `i0` may be out of order with its parent. -/
def OrderedExcept (s : σ) (n lo i0 : Nat) : Prop :=
  ∀ c, 0 < c → c < n → lo ≤ parent c → c ≠ i0 → InOrder M s c

section Keys

variable {M}

theorem less_iff {s : σ} {i j : Nat} (hs : M.Good s) (hi : i < h.len s) (hj : j < h.len s) :
    h.less s i j = true ↔ keyAt M s i < keyAt M s j := by
  rw [M.less_eq hs hi hj, decide_eq_true_iff]
  rfl

theorem keyAt_swap_left {s : σ} {i j : Nat} (hs : M.Good s) (hi : i < h.len s)
    (hj : j < h.len s) : keyAt M (h.swap s i j) i = keyAt M s j := by
  unfold keyAt
  rw [Model.item_swap_left hs hi hj]

theorem keyAt_swap_right {s : σ} {i j : Nat} (hs : M.Good s) (hi : i < h.len s)
    (hj : j < h.len s) : keyAt M (h.swap s i j) j = keyAt M s i := by
  unfold keyAt
  rw [Model.item_swap_right hs hi hj]

theorem keyAt_swap_other {s : σ} {i j k : Nat} (hs : M.Good s) (hi : i < h.len s)
    (hj : j < h.len s) (hki : k ≠ i) (hkj : k ≠ j) : keyAt M (h.swap s i j) k = keyAt M s k := by
  unfold keyAt
  rw [Model.item_swap_other hs hi hj hki hkj]

/-- A heap on `n` positions is one on fewer. -/
theorem Ordered.mono {s : σ} {n m : Nat} (ho : Ordered M s n) (hmn : m ≤ n) : Ordered M s m :=
  fun c hc0 hcm hlo => ho c hc0 (by omega) hlo

/-- The order on the first `n` positions reads only their items. -/
theorem Ordered.of_item_eq {s t : σ} {n : Nat} (ho : Ordered M s n)
    (heq : ∀ k, k < n → M.item t k = M.item s k) : Ordered M t n := by
  intro c hc0 hcn hlo
  have hp : parent c < c := parent_lt hc0
  unfold InOrder keyAt
  rw [heq c hcn, heq (parent c) (by omega)]
  exact ho c hc0 hcn hlo

/-- The root of a heap has the least key. -/
theorem Ordered.root_le {s : σ} {n : Nat} (ho : Ordered M s n) :
    ∀ c, c < n → keyAt M s 0 ≤ keyAt M s c := by
  intro c
  induction c using Nat.strong_induction_on with
  | _ c ih =>
    intro hcn
    rcases Nat.eq_zero_or_pos c with hc0 | hc0
    · rw [hc0]
    · have hp : parent c < c := parent_lt hc0
      calc keyAt M s 0 ≤ keyAt M s (parent c) := ih (parent c) hp (by omega)
        _ ≤ keyAt M s c := ho c hc0 hcn (Nat.zero_le _)

end Keys

/-! ## Sifting up -/

/-- What `up` needs at position `j`: every position but `j` is in order with its parent, and the
parent of `j` is at most `j`'s children. -/
structure UpOrder (s : σ) (n j : Nat) : Prop where
  except : ∀ c, 0 < c → c < n → c ≠ j → InOrder M s c
  grand : 0 < j → ∀ c, IsChild c j → c < n → keyAt M s (parent j) ≤ keyAt M s c

section Up

variable {M}

/-- One swap of `up` moves the exception to the parent. -/
theorem UpOrder.move {s : σ} {n j : Nat} (o : UpOrder M s n j) (hs : M.Good s)
    (hn : n ≤ h.len s) (hj0 : 0 < j) (hjn : j < n) (hlt : keyAt M s j < keyAt M s (parent j)) :
    UpOrder M (h.swap s (parent j) j) n (parent j) := by
  have hp : parent j < j := parent_lt hj0
  have hpl : parent j < h.len s := by omega
  have hjl : j < h.len s := by omega
  constructor
  · intro c hc0 hcn hcp
    unfold InOrder
    by_cases hcj : c = j
    · -- the element that moved up is now the parent of the one it passed
      rw [hcj, keyAt_swap_left hs hpl hjl, keyAt_swap_right hs hpl hjl]
      exact hlt.le
    rw [keyAt_swap_other hs hpl hjl hcp hcj]
    by_cases hpcj : parent c = j
    · rw [hpcj, keyAt_swap_right hs hpl hjl]
      exact o.grand hj0 c ⟨hc0, hpcj⟩ hcn
    by_cases hpcp : parent c = parent j
    · -- a sibling of `j` now sits below the smaller key that moved up
      have hold : keyAt M s (parent j) ≤ keyAt M s c := by
        have := o.except c hc0 hcn hcj
        unfold InOrder at this
        rwa [hpcp] at this
      rw [hpcp, keyAt_swap_left hs hpl hjl]
      exact hlt.le.trans hold
    rw [keyAt_swap_other hs hpl hjl hpcp hpcj]
    exact o.except c hc0 hcn hcj
  · intro hp0 c hc hcn
    have hg : parent (parent j) < parent j := parent_lt hp0
    have hup : keyAt M s (parent (parent j)) ≤ keyAt M s (parent j) :=
      o.except (parent j) hp0 (by omega) (by omega)
    rw [keyAt_swap_other hs hpl hjl (by omega) (by omega)]
    by_cases hcj : c = j
    · rw [hcj, keyAt_swap_right hs hpl hjl]
      exact hup
    have hcp : c ≠ parent j := hc.gt.ne'
    have hold : keyAt M s (parent j) ≤ keyAt M s c := by
      have := o.except c hc.1 hcn hcj
      unfold InOrder at this
      rwa [hc.2] at this
    rw [keyAt_swap_other hs hpl hjl hcp hcj]
    exact hup.trans hold

/-- Where `up` stops, the array is a heap. -/
theorem UpOrder.finish {s : σ} {n j : Nat} (o : UpOrder M s n j)
    (hstop : parent j = j ∨ ¬ keyAt M s j < keyAt M s (parent j)) : Ordered M s n := by
  intro c hc0 hcn _
  by_cases hcj : c = j
  · rw [hcj] at hc0 ⊢
    rcases hstop with h0 | hge
    · exact absurd (parent_eq_self_iff.mp h0) hc0.ne'
    · exact not_lt.mp hge
  · exact o.except c hc0 hcn hcj

/-- `up` from `j` ends with a heap, by swaps inside it. -/
theorem up_ordered {n : Nat} : ∀ {s : σ} {j : Nat}, M.Good s → n ≤ h.len s → j < n →
    UpOrder M s n j → Ordered M (up h s j) n ∧ Swaps M 0 n s (up h s j) := by
  intro s j
  induction s, j using up.induct h with
  | case1 s j hstop =>
    intro hs hn hjn o
    rw [up, if_pos hstop]
    refine ⟨o.finish ?_, .refl s⟩
    rcases hstop with h0 | hge
    · exact Or.inl h0
    · right
      have hp : parent j ≤ j := by unfold parent; omega
      rw [← less_iff hs (by omega) (by omega)]
      simpa using hge
  | case2 s j hmove ih =>
    intro hs hn hjn o
    rw [up, if_neg hmove]
    simp only [not_or, Bool.not_eq_true', Bool.not_eq_false] at hmove
    have hj0 : 0 < j := by
      by_contra hj
      exact hmove.1 (parent_eq_self_iff.mpr (by omega))
    have hp : parent j < j := parent_lt hj0
    have hlt : keyAt M s j < keyAt M s (parent j) :=
      (less_iff hs (by omega) (by omega)).mp hmove.2
    have hswap : M.Good (h.swap s (parent j) j) ∧ n ≤ h.len (h.swap s (parent j) j) :=
      ⟨M.good_swap hs (by omega) (by omega), by rw [M.len_swap hs (by omega) (by omega)]; exact hn⟩
    obtain ⟨hord, hsw⟩ := ih hswap.1 hswap.2 (by omega) (o.move hs hn hj0 hjn hlt)
    exact ⟨hord, .swap hs hn (Nat.zero_le _) (by omega) (Nat.zero_le _) hjn hsw⟩

end Up

/-! ## Sifting down -/

section DownEquations

theorem downFrom_of_ge {n i : Nat} (s : σ) (hn : 2 * i + 1 ≥ n) : downFrom h n s i = (s, i) := by
  rw [downFrom, if_pos hn]

theorem downFrom_of_stop {n i : Nat} {s : σ} (hn : 2 * i + 1 < n)
    (hstop : h.less s (lesserChild h n s i) i = false) : downFrom h n s i = (s, i) := by
  rw [downFrom, if_neg (by omega)]
  dsimp only
  rw [if_pos (by simp [hstop])]

theorem downFrom_of_move {n i : Nat} {s : σ} (hn : 2 * i + 1 < n)
    (hmove : h.less s (lesserChild h n s i) i = true) :
    downFrom h n s i = downFrom h n (h.swap s i (lesserChild h n s i)) (lesserChild h n s i) := by
  rw [downFrom, if_neg (by omega)]
  dsimp only
  rw [if_neg (by simp [hmove])]

/-- `down` swaps only at and below where it starts, and the element only moves down. -/
theorem downFrom_swaps {n : Nat} : ∀ {s : σ} {i : Nat}, M.Good s → n ≤ h.len s →
    Swaps M i n s (downFrom h n s i).1 ∧ i ≤ (downFrom h n s i).2 := by
  intro s i
  induction s, i using downFrom.induct h n with
  | case1 s i hge =>
    intro _ _
    rw [downFrom_of_ge s hge]
    exact ⟨.refl s, le_rfl⟩
  | case2 s i hlt j hstop =>
    intro _ _
    simp only [Bool.not_eq_true'] at hstop
    rw [downFrom_of_stop (by omega) hstop]
    exact ⟨.refl s, le_rfl⟩
  | case3 s i hlt j hmove ih =>
    intro hs hn
    simp only [Bool.not_eq_true', Bool.not_eq_false] at hmove
    have hij : i < j := lesserChild_gt h n s i
    have hjn : j < n := by unfold j lesserChild; dsimp only; split <;> omega
    rw [downFrom_of_move (by omega) hmove]
    have hlen : h.len (h.swap s i j) = h.len s := M.len_swap hs (by omega) (by omega)
    obtain ⟨hsw, hle⟩ := ih (M.good_swap hs (by omega) (by omega)) (by rw [hlen]; exact hn)
    exact ⟨.swap hs hn le_rfl (by omega) hij.le hjn (hsw.mono hij.le le_rfl (by rw [hlen]; exact hn)),
      hij.le.trans hle⟩

end DownEquations

/-- What `down` from `i0` needs at position `i`, for the parents from `lo` on: every position off
`i0` and off `i`'s children is in order with its parent, and once the element has left `i0`, the
parent of `i` is at most `i`'s children. -/
structure DownOrder (s : σ) (n lo i0 i : Nat) : Prop where
  except : ∀ c, 0 < c → c < n → lo ≤ parent c → parent c ≠ i → c ≠ i0 → InOrder M s c
  grand : i0 < i → ∀ c, IsChild c i → c < n → keyAt M s (parent i) ≤ keyAt M s c

section Down

variable {M}

/-- The child `down` picks has the least key of `i`'s children. -/
theorem lesserChild_min {s : σ} {n i : Nat} (hs : M.Good s) (hn : n ≤ h.len s)
    (hi : 2 * i + 1 < n) :
    IsChild (lesserChild h n s i) i ∧ lesserChild h n s i < n ∧
      ∀ c, IsChild c i → c < n → keyAt M s (lesserChild h n s i) ≤ keyAt M s c := by
  unfold lesserChild
  dsimp only
  split_ifs with hr
  · refine ⟨isChild_right i, hr.1, fun c hc _ => ?_⟩
    rcases hc.range with rfl | rfl
    · exact ((less_iff hs (by omega) (by omega)).mp hr.2).le
    · exact le_rfl
  · refine ⟨isChild_left i, hi, fun c hc hcn => ?_⟩
    rcases hc.range with rfl | rfl
    · exact le_rfl
    · have hnlt : ¬ keyAt M s (2 * i + 1 + 1) < keyAt M s (2 * i + 1) :=
        fun hlt => hr ⟨hcn, (less_iff hs (by omega) (by omega)).mpr hlt⟩
      exact not_lt.mp hnlt

/-- Where `down` stops before the end, `i` is at most its children. -/
theorem le_children_of_stop {s : σ} {n i : Nat} (hs : M.Good s) (hn : n ≤ h.len s)
    (hi : 2 * i + 1 < n) (hstop : h.less s (lesserChild h n s i) i = false) :
    ∀ c, IsChild c i → c < n → keyAt M s i ≤ keyAt M s c := by
  obtain ⟨hjc, hjn, hmin⟩ := lesserChild_min hs hn hi
  have hge : keyAt M s i ≤ keyAt M s (lesserChild h n s i) := by
    apply not_lt.mp
    intro hlt
    rw [(less_iff hs (by omega) (by omega)).mpr hlt] at hstop
    cases hstop
  intro c hc hcn
  exact hge.trans (hmin c hc hcn)

/-- What one call of `down` does: it leaves the state as it is, with `i` at most its children,
or the element moves and one of `i`'s children takes its place. -/
theorem downFrom_cases {s : σ} {n i : Nat} (hs : M.Good s) (hn : n ≤ h.len s) :
    (downFrom h n s i = (s, i) ∧ ∀ c, IsChild c i → c < n → keyAt M s i ≤ keyAt M s c) ∨
    (i < (downFrom h n s i).2 ∧
      ∃ c, IsChild c i ∧ c < n ∧ M.item (downFrom h n s i).1 i = M.item s c) := by
  by_cases hge : 2 * i + 1 ≥ n
  · left
    refine ⟨downFrom_of_ge s hge, fun c hc hcn => ?_⟩
    have := hc.range
    omega
  cases hl : h.less s (lesserChild h n s i) i with
  | false =>
    exact .inl ⟨downFrom_of_stop (by omega) hl, le_children_of_stop hs hn (by omega) hl⟩
  | true =>
    right
    obtain ⟨hjc, hjn, -⟩ := lesserChild_min (i := i) hs hn (by omega)
    have hij := hjc.gt
    have hil : i < h.len s := by omega
    have hjl : lesserChild h n s i < h.len s := by omega
    have hs' : M.Good (h.swap s i (lesserChild h n s i)) := M.good_swap hs hil hjl
    obtain ⟨hsw, hle⟩ := downFrom_swaps (M := M) (i := lesserChild h n s i) hs'
      (show n ≤ h.len (h.swap s i (lesserChild h n s i)) by rw [M.len_swap hs hil hjl]; exact hn)
    rw [downFrom_of_move (by omega) hl]
    refine ⟨by omega, lesserChild h n s i, hjc, hjn, ?_⟩
    rw [hsw.item_below hs' hij, Model.item_swap_left hs hil hjl]

/-- One swap of `down` with the lesser child `j` moves the exception to `j`. -/
theorem DownOrder.move {s : σ} {n lo i0 i j : Nat} (o : DownOrder M s n lo i0 i) (hs : M.Good s)
    (hn : n ≤ h.len s) (hlo : lo ≤ i0) (hi0 : i0 ≤ i) (hj : IsChild j i) (hjn : j < n)
    (hmin : ∀ c, IsChild c i → c < n → keyAt M s j ≤ keyAt M s c)
    (hlt : keyAt M s j < keyAt M s i) : DownOrder M (h.swap s i j) n lo i0 j := by
  have hij : i < j := hj.gt
  have hil : i < h.len s := by omega
  have hjl : j < h.len s := by omega
  constructor
  · intro c hc0 hcn hloc hpcj hci0
    unfold InOrder
    by_cases hcj : c = j
    · rw [hcj, hj.2, keyAt_swap_left hs hil hjl, keyAt_swap_right hs hil hjl]
      exact hlt.le
    by_cases hci : c = i
    · -- the lesser child moved up into `i`, below `i`'s parent
      have hpi : parent i < i := parent_lt (by omega)
      rw [hci, keyAt_swap_left hs hil hjl, keyAt_swap_other hs hil hjl hpi.ne (by omega)]
      exact o.grand (by omega) j hj hjn
    rw [keyAt_swap_other hs hil hjl hci hcj]
    by_cases hpci : parent c = i
    · rw [hpci, keyAt_swap_left hs hil hjl]
      exact hmin c ⟨hc0, hpci⟩ hcn
    rw [keyAt_swap_other hs hil hjl hpci hpcj]
    exact o.except c hc0 hcn hloc hpci hci0
  · intro _ c hc hcn
    have hjc : j < c := hc.gt
    have hold : keyAt M s j ≤ keyAt M s c := by
      have := o.except c hc.1 hcn (by rw [hc.2]; omega) (by rw [hc.2]; omega) (by omega)
      unfold InOrder at this
      rwa [hc.2] at this
    rw [hj.2, keyAt_swap_left hs hil hjl, keyAt_swap_other hs hil hjl (by omega) (by omega)]
    exact hold

/-- Where `down` stops, only `i0` may be out of order with its parent. -/
theorem DownOrder.finish {s : σ} {n lo i0 i : Nat} (o : DownOrder M s n lo i0 i)
    (hstop : ∀ c, IsChild c i → c < n → keyAt M s i ≤ keyAt M s c) : OrderedExcept M s n lo i0 := by
  intro c hc0 hcn hloc hci0
  by_cases hpci : parent c = i
  · unfold InOrder
    rw [hpci]
    exact hstop c ⟨hc0, hpci⟩ hcn
  · exact o.except c hc0 hcn hloc hpci hci0

/-- `down` ends with every position but `i0` in order with its parent. -/
theorem downFrom_ordered {n lo i0 : Nat} : ∀ {s : σ} {i : Nat}, M.Good s → n ≤ h.len s →
    lo ≤ i0 → i0 ≤ i → DownOrder M s n lo i0 i → OrderedExcept M (downFrom h n s i).1 n lo i0 := by
  intro s i
  induction s, i using downFrom.induct h n with
  | case1 s i hge =>
    intro _ _ _ _ o
    rw [downFrom_of_ge s hge]
    -- no child of `i` is in the array
    apply o.finish
    intro c hc hcn
    have := hc.range
    omega
  | case2 s i hlt j hstop =>
    intro hs hn _ _ o
    simp only [Bool.not_eq_true'] at hstop
    rw [downFrom_of_stop (by omega) hstop]
    exact o.finish (le_children_of_stop hs hn (by omega) hstop)
  | case3 s i hlt j hmove ih =>
    intro hs hn hlo hi0 o
    simp only [Bool.not_eq_true', Bool.not_eq_false] at hmove
    obtain ⟨hjc, hjn, hmin⟩ := lesserChild_min (i := i) hs hn (by omega)
    have hij : i < j := hjc.gt
    have hil : i < h.len s := by omega
    have hjl : j < h.len s := by omega
    rw [downFrom_of_move (by omega) hmove]
    exact ih (M.good_swap hs hil hjl) (by rw [M.len_swap hs hil hjl]; exact hn) hlo (by omega)
      (o.move hs hn hlo hi0 hjc hjn hmin ((less_iff hs hjl hil).mp hmove))

end Down

/-! ## The operations -/

/-- What `Fix` and `Remove` need at `i`: every position off `i` and off `i`'s children is in order
with its parent, and the parent of `i` is at most `i`'s children. -/
structure HoleOrder (s : σ) (n i : Nat) : Prop where
  except : ∀ c, 0 < c → c < n → c ≠ i → parent c ≠ i → InOrder M s c
  grand : 0 < i → ∀ c, IsChild c i → c < n → keyAt M s (parent i) ≤ keyAt M s c

section Operations

variable {M}

/-- `if !down(h, i, n) { up(h, i) }`, the tail of `Fix` and `Remove`, ends with a heap. -/
theorem sift_ordered {s : σ} {n i : Nat} (hs : M.Good s) (hn : n ≤ h.len s) (hin : i < n)
    (o : HoleOrder M s n i) :
    Ordered M (if !(down h s i n).2 then up h (down h s i n).1 i else (down h s i n).1) n ∧
      Swaps M 0 n s (if !(down h s i n).2 then up h (down h s i n).1 i else (down h s i n).1) := by
  have hdo : DownOrder M s n 0 i i :=
    ⟨fun c hc0 hcn _ hpci hci => o.except c hc0 hcn hci hpci, fun hii => absurd hii (lt_irrefl i)⟩
  have hord := downFrom_ordered hs hn (Nat.zero_le i) le_rfl hdo
  have hsw := (downFrom_swaps (M := M) (i := i) hs hn).1
  unfold down
  rcases downFrom_cases (i := i) hs hn with ⟨hstay, hchildren⟩ | ⟨hmoved, c0, hc0i, hc0n, hitem⟩
  · -- `down` left the element at `i`, so `up` takes it from there
    rw [hstay, if_pos (by simp)]
    apply up_ordered hs hn hin
    constructor
    · intro c hc0 hcn hci
      by_cases hpci : parent c = i
      · unfold InOrder
        rw [hpci]
        exact hchildren c ⟨hc0, hpci⟩ hcn
      · exact o.except c hc0 hcn hci hpci
    · exact o.grand
  · -- the element moved down and a child of `i` took its place, at least `i`'s parent
    rw [if_neg (by simp [hmoved])]
    refine ⟨?_, hsw.mono (Nat.zero_le i) le_rfl hn⟩
    intro c hc0 hcn _
    by_cases hci : c = i
    · have hpi : parent i < i := parent_lt (by omega)
      unfold InOrder
      rw [hci]
      unfold keyAt
      rw [hitem, hsw.item_below hs hpi]
      exact o.grand (by omega) c0 hc0i hc0n
    · exact hord c hc0 hcn (Nat.zero_le _) hci

/-- `heap.Fix(h, i)` after the key at `i` changed ends with a heap, by swaps. -/
theorem fix_ordered {s : σ} {i : Nat} (hs : M.Good s) (hi : i < h.len s)
    (o : HoleOrder M s (h.len s) i) :
    Ordered M (fix h s i) (h.len s) ∧ Swaps M 0 (h.len s) s (fix h s i) := by
  unfold fix
  exact sift_ordered hs le_rfl hi o

/-- Swapping `i` with the last position of a heap leaves the rest a heap but for `i`. -/
theorem holeOrder_swap_last {s : σ} {i : Nat} (hs : M.Good s) (hi : i < h.len s)
    (ho : Ordered M s (h.len s)) : HoleOrder M (h.swap s i (h.len s - 1)) (h.len s - 1) i := by
  have hl : h.len s - 1 < h.len s := by omega
  constructor
  · intro c hc0 hcn hci hpci
    have hp : parent c < c := parent_lt hc0
    unfold InOrder
    rw [keyAt_swap_other hs hi hl hci (by omega), keyAt_swap_other hs hi hl hpci (by omega)]
    exact ho c hc0 (by omega) (Nat.zero_le _)
  · intro hi0 c hc hcn
    have hp : parent i < i := parent_lt hi0
    have hic : i < c := hc.gt
    rw [keyAt_swap_other hs hi hl hp.ne (by omega), keyAt_swap_other hs hi hl hic.ne' (by omega)]
    calc keyAt M s (parent i) ≤ keyAt M s i := ho i hi0 hi (Nat.zero_le _)
      _ ≤ keyAt M s c := by
        have := ho c hc.1 (by omega) (Nat.zero_le _)
        unfold InOrder at this
        rwa [hc.2] at this

/-- `heap.Remove(h, i)` leaves a heap on all but the last position, where the item from `i` now
is, by swaps. -/
theorem removeDown_ordered {s : σ} {i : Nat} (hs : M.Good s) (hi : i < h.len s)
    (ho : Ordered M s (h.len s)) :
    Ordered M (removeDown h s i) (h.len s - 1) ∧ Swaps M 0 (h.len s) s (removeDown h s i) ∧
      M.item (removeDown h s i) (h.len s - 1) = M.item s i := by
  unfold removeDown
  by_cases hlast : h.len s - 1 = i
  · rw [if_neg (not_not.mpr hlast)]
    exact ⟨ho.mono (Nat.sub_le _ _), .refl s, by rw [hlast]⟩
  rw [if_pos hlast]
  have hl : h.len s - 1 < h.len s := by omega
  have hs1 : M.Good (h.swap s i (h.len s - 1)) := M.good_swap hs hi hl
  have hlen1 : h.len (h.swap s i (h.len s - 1)) = h.len s := M.len_swap hs hi hl
  obtain ⟨hord, hsw⟩ := sift_ordered hs1 (by omega) (by omega) (holeOrder_swap_last hs hi ho)
  refine ⟨hord, ?_, ?_⟩
  · exact (Swaps.single hs le_rfl (Nat.zero_le _) hi (Nat.zero_le _) hl).trans
      (hsw.mono le_rfl (by omega) (by omega))
  · rw [hsw.item_above hs1 le_rfl, Model.item_swap_right hs hi hl]

/-- `heap.Pop(h)` leaves a heap on all but the last position, which holds the old root, by
swaps. -/
theorem popDown_ordered {s : σ} (hs : M.Good s) (hpos : 0 < h.len s)
    (ho : Ordered M s (h.len s)) :
    Ordered M (popDown h s) (h.len s - 1) ∧ Swaps M 0 (h.len s) s (popDown h s) ∧
      M.item (popDown h s) (h.len s - 1) = M.item s 0 := by
  have hl : h.len s - 1 < h.len s := by omega
  have hs1 : M.Good (h.swap s 0 (h.len s - 1)) := M.good_swap hs hpos hl
  have hn1 : h.len s - 1 ≤ h.len (h.swap s 0 (h.len s - 1)) := by
    rw [M.len_swap hs hpos hl]
    exact Nat.sub_le _ _
  have o := holeOrder_swap_last hs hpos ho
  -- with the hole at the root, `down` alone restores the order
  have hdo : DownOrder M (h.swap s 0 (h.len s - 1)) (h.len s - 1) 0 0 0 :=
    ⟨fun c hc0 hcn _ hpc _ => o.except c hc0 hcn hc0.ne' hpc, fun h00 => absurd h00 (lt_irrefl 0)⟩
  have hsw := (downFrom_swaps (M := M) (i := 0) hs1 hn1).1
  unfold popDown down
  refine ⟨?_, ?_, ?_⟩
  · intro c hc0 hcn _
    exact downFrom_ordered hs1 hn1 le_rfl le_rfl hdo c hc0 hcn (Nat.zero_le _) hc0.ne'
  · exact (Swaps.single hs le_rfl le_rfl hpos (Nat.zero_le _) hl).trans
      (hsw.mono le_rfl (Nat.sub_le _ _) (by rw [M.len_swap hs hpos hl]))
  · rw [hsw.item_above hs1 le_rfl, Model.item_swap_right hs hpos hl]

/-- `heap.Push(h, x)` after `h.Push(x)` appended to a heap ends with a heap, by swaps. -/
theorem pushUp_ordered {s : σ} (hs : M.Good s) (hpos : 0 < h.len s)
    (ho : Ordered M s (h.len s - 1)) :
    Ordered M (pushUp h s) (h.len s) ∧ Swaps M 0 (h.len s) s (pushUp h s) := by
  unfold pushUp
  apply up_ordered hs le_rfl (by omega)
  constructor
  · intro c hc0 hcn hcl
    exact ho c hc0 (by omega) (Nat.zero_le _)
  · intro _ c hc hcn
    -- the last position has no children in the array
    have := hc.range
    omega

/-- The loop of `heap.Init` from position `m - 1` down to `0`, with the parents from `m` on
already in order. -/
theorem init_loop_ordered {N : Nat} (m : Nat) :
    ∀ {s : σ}, M.Good s → h.len s = N → m ≤ N / 2 → OrderedFrom M s N m →
      Ordered M ((List.range m).reverse.foldl (fun s i => (down h s i (h.len s)).1) s) N ∧
      Swaps M 0 N s ((List.range m).reverse.foldl (fun s i => (down h s i (h.len s)).1) s) := by
  induction m with
  | zero =>
    intro s _ _ _ ho
    exact ⟨ho, .refl s⟩
  | succ m ih =>
    intro s hs hlen hm ho
    rw [List.range_succ, List.reverse_append, List.reverse_singleton, List.singleton_append,
      List.foldl_cons]
    show Ordered M (List.foldl _ (downFrom h (h.len s) s m).1 (List.range m).reverse) N ∧
      Swaps M 0 N s (List.foldl _ (downFrom h (h.len s) s m).1 (List.range m).reverse)
    rw [hlen]
    have hn : N ≤ h.len s := hlen.ge
    have hdo : DownOrder M s N m m m :=
      ⟨fun c hc0 hcn hmc hpcm _ => ho c hc0 hcn (by omega), fun hmm => absurd hmm (lt_irrefl m)⟩
    have hsw := (downFrom_swaps (M := M) (i := m) hs hn).1
    have hexc := downFrom_ordered hs hn le_rfl le_rfl hdo
    -- `m` itself is no child of a parent from `m` on
    have hfrom : OrderedFrom M (downFrom h N s m).1 N m := by
      intro c hc0 hcn hmc
      have hp : parent c < c := parent_lt hc0
      exact hexc c hc0 hcn hmc (by omega)
    obtain ⟨hord, hsw'⟩ := ih (hsw.good hs) (by rw [hsw.len_eq hs, hlen]) (by omega) hfrom
    exact ⟨hord, (hsw.mono (Nat.zero_le m) le_rfl hn).trans
      (hsw'.mono le_rfl le_rfl (by rw [hsw.len_eq hs]; exact hn))⟩

/-- `heap.Init(h)` makes the whole array a heap, by swaps. -/
theorem init_ordered {s : σ} (hs : M.Good s) :
    Ordered M (init h s) (h.len s) ∧ Swaps M 0 (h.len s) s (init h s) := by
  apply init_loop_ordered (h.len s / 2) hs rfl le_rfl
  -- no position has a parent from the middle on
  intro c _ hcn hmc
  unfold parent at hmc
  omega

end Operations

/-! ## Slices

The heaps of the program are Go slices whose `Swap` is `h[i], h[j] = h[j], h[i]`, whose `Push`
appends and whose `Pop` cuts off the last element. -/

section Slices

variable {β : Type}

/-- `h[i], h[j] = h[j], h[i]`; out of range, where Go panics, the slice is left as it is. -/
def listSwap (l : List β) (i j : Nat) : List β :=
  if hij : i < l.length ∧ j < l.length then
    (l.set i (l.get ⟨j, hij.2⟩)).set j (l.get ⟨i, hij.1⟩)
  else l

@[simp] theorem listSwap_length (l : List β) (i j : Nat) : (listSwap l i j).length = l.length := by
  unfold listSwap
  split <;> simp

theorem listSwap_getElem? {l : List β} {i j : Nat} (k : Nat) (hi : i < l.length)
    (hj : j < l.length) :
    (listSwap l i j)[k]? = if k = i then l[j]? else if k = j then l[i]? else l[k]? := by
  unfold listSwap
  rw [dif_pos ⟨hi, hj⟩, List.getElem?_set, List.getElem?_set]
  by_cases hkj : k = j
  · subst hkj
    by_cases hki : k = i
    · subst hki
      simp [hj]
    · simp [hki, hi, hj]
  · by_cases hki : k = i
    · subst hki
      simp [Ne.symm hkj, hj, hi]
    · simp [Ne.symm hkj, Ne.symm hki, hki, hkj]

/-- The heap of a Go slice, with `Less` as the program defines it. -/
def sliceInterface (less : List β → Nat → Nat → Bool) : Interface (List β) :=
  ⟨List.length, less, listSwap⟩

@[simp] theorem sliceInterface_len (less : List β → Nat → Nat → Bool) (l : List β) :
    (sliceInterface less).len l = l.length := rfl

@[simp] theorem sliceInterface_swap (less : List β → Nat → Nat → Bool) (l : List β) (i j : Nat) :
    (sliceInterface less).swap l i j = listSwap l i j := rfl

/-- A slice read through `key`, where `less` compares keys in range. -/
def sliceModel (less : List β → Nat → Nat → Bool) (key : Option β → κ)
    (hless : ∀ l i j, i < l.length → j < l.length → less l i j = decide (key l[i]? < key l[j]?)) :
    Model (sliceInterface less) (Option β) κ where
  item l k := l[k]?
  key := key
  Good _ := True
  good_swap _ _ _ := trivial
  len_swap _ _ _ := listSwap_length _ _ _
  item_swap k _ hi hj := listSwap_getElem? k hi hj
  less_eq _ hi hj := hless _ _ _ hi hj

/-- `heap.Push(h, x)` on a slice: `h.Push(x)` appends, then `up` from the end. -/
def slicePush (less : List β → Nat → Nat → Bool) (l : List β) (x : β) : List β :=
  pushUp (sliceInterface less) (l ++ [x])

/-- `heap.Pop(h)` on a slice: after `popDown`, `h.Pop()` cuts off `old[n-1]` and returns it. -/
def slicePop (less : List β → Nat → Nat → Bool) (l : List β) : Option β × List β :=
  ((popDown (sliceInterface less) l)[l.length - 1]?,
    (popDown (sliceInterface less) l).take (l.length - 1))

/-- `heap.Remove(h, i)` on a slice: after `removeDown`, `h.Pop()` as in `slicePop`. -/
def sliceRemove (less : List β → Nat → Nat → Bool) (l : List β) (i : Nat) : Option β × List β :=
  ((removeDown (sliceInterface less) l i)[l.length - 1]?,
    (removeDown (sliceInterface less) l i).take (l.length - 1))

variable {less : List β → Nat → Nat → Bool} {key : Option β → κ}
  {hless : ∀ l i j, i < l.length → j < l.length → less l i j = decide (key l[i]? < key l[j]?)}

theorem itemsBelow_sliceModel (l : List β) :
    Swaps.itemsBelow (sliceModel less key hless) l l.length = l.map some := by
  apply List.ext_getElem
  · simp [Swaps.itemsBelow]
  · intro k h1 h2
    simp [Swaps.itemsBelow, sliceModel]

/-- Swaps on a slice permute it. -/
theorem Swaps.slice_perm {lo n : Nat} {l l' : List β}
    (hsw : Swaps (sliceModel less key hless) lo n l l') : l'.Perm l := by
  induction hsw with
  | refl => exact List.Perm.refl _
  | @swap l _ i j _ hn _ hi _ hj _ ih =>
    have hp : (Swaps.itemsBelow (sliceModel less key hless) (listSwap l i j) l.length).Perm
        (Swaps.itemsBelow (sliceModel less key hless) l l.length) :=
      Swaps.itemsBelow_swap_perm trivial le_rfl (Nat.lt_of_lt_of_le hi hn)
        (Nat.lt_of_lt_of_le hj hn)
    have hlen : (listSwap l i j).length = l.length := listSwap_length l i j
    rw [← hlen, itemsBelow_sliceModel, hlen, itemsBelow_sliceModel] at hp
    exact ih.trans ((List.map_perm_map_iff (Option.some_injective β)).mp hp)

/-- Swapping two elements permutes a slice: one swap in the slice heap of any order. -/
theorem listSwap_perm (l : List β) (i j : Nat) : (listSwap l i j).Perm l := by
  by_cases hij : i < l.length ∧ j < l.length
  · have hsw : Swaps (sliceModel (fun _ _ _ => false) (fun _ : Option β => (0 : Nat))
        (fun _ _ _ _ _ => rfl)) 0 l.length l (listSwap l i j) :=
      Swaps.single trivial le_rfl (Nat.zero_le _) hij.1 (Nat.zero_le _) hij.2
    exact hsw.slice_perm
  · unfold listSwap
    rw [dif_neg hij]

/-- `up` keeps a slice's length. -/
theorem up_length (l : List β) (j : Nat) : (up (sliceInterface less) l j).length = l.length := by
  induction l, j using up.induct (sliceInterface less) with
  | case1 l j hstop => rw [up, if_pos hstop]
  | case2 l j hmove ih =>
    rw [up, if_neg hmove, ih]
    exact listSwap_length _ _ _

/-- `down` keeps a slice's length. -/
theorem downFrom_length (n : Nat) (l : List β) (i : Nat) :
    (downFrom (sliceInterface less) n l i).1.length = l.length := by
  induction l, i using downFrom.induct (sliceInterface less) n with
  | case1 l i hge => rw [downFrom_of_ge l hge]
  | case2 l i hlt j hstop =>
    simp only [Bool.not_eq_true'] at hstop
    rw [downFrom_of_stop (by omega) hstop]
  | case3 l i hlt j hmove ih =>
    simp only [Bool.not_eq_true', Bool.not_eq_false] at hmove
    rw [downFrom_of_move (by omega) hmove]
    exact ih.trans (listSwap_length _ _ _)

/-- `heap.Fix` keeps a slice's length. -/
theorem fix_length (l : List β) (i : Nat) : (fix (sliceInterface less) l i).length = l.length := by
  unfold fix down
  split
  · rw [up_length, downFrom_length]
  · rw [downFrom_length]

/-- The order on a slice's first `n` positions reads only those positions. -/
theorem ordered_of_prefix {l l' : List β} {n : Nat} (hpre : ∀ k, k < n → l'[k]? = l[k]?)
    (ho : Ordered (sliceModel less key hless) l n) : Ordered (sliceModel less key hless) l' n := by
  intro c hc0 hcn hlo
  have hp : parent c < c := parent_lt hc0
  have hc := ho c hc0 hcn hlo
  unfold InOrder keyAt at hc ⊢
  show key l'[parent c]? ≤ key l'[c]?
  rw [hpre c hcn, hpre (parent c) (by omega)]
  exact hc

/-- A slice of positive length is its front and its last element. -/
theorem cons_take_perm {l l' : List β} {x : β} (hpos : 0 < l'.length)
    (hlast : l'[l'.length - 1]? = some x) (hp : l'.Perm l) :
    (x :: l'.take (l'.length - 1)).Perm l := by
  have hsplit : l' = l'.take (l'.length - 1) ++ [x] := by
    have hdrop : l'.drop (l'.length - 1) = [x] := by
      rw [List.drop_eq_getElem_cons (by omega)]
      have hx : l'[l'.length - 1] = x := by
        rw [List.getElem?_eq_getElem (by omega)] at hlast
        exact Option.some.inj hlast
      rw [hx, show l'.length - 1 + 1 = l'.length by omega, List.drop_length]
    conv => lhs; rw [← List.take_append_drop (l'.length - 1) l', hdrop]
  have hcons : (x :: l'.take (l'.length - 1)).Perm (l'.take (l'.length - 1) ++ [x]) :=
    (List.perm_append_singleton x _).symm
  rw [← hsplit] at hcons
  exact hcons.trans hp

/-- `heap.Push` onto a heap slice gives a heap of the old elements and the new one. -/
theorem slicePush_spec {l : List β} (x : β) (ho : Ordered (sliceModel less key hless) l l.length) :
    Ordered (sliceModel less key hless) (slicePush less l x) (l.length + 1) ∧
      (slicePush less l x).Perm (x :: l) := by
  have hlen : (l ++ [x]).length = l.length + 1 := by simp
  have ho' : Ordered (sliceModel less key hless) (l ++ [x]) ((l ++ [x]).length - 1) := by
    rw [hlen, Nat.add_sub_cancel]
    exact ordered_of_prefix (fun k hk => List.getElem?_append_left hk) ho
  obtain ⟨hord, hsw⟩ := pushUp_ordered (M := sliceModel less key hless) trivial (by simp) ho'
  refine ⟨?_, ?_⟩
  · rw [← hlen]
    exact hord
  · exact hsw.slice_perm.trans (List.perm_append_singleton x l)

/-- `heap.Pop` from a nonempty heap slice returns its first element, the least, and leaves a heap
of the others. -/
theorem slicePop_spec {l : List β} (hpos : 0 < l.length)
    (ho : Ordered (sliceModel less key hless) l l.length) :
    (slicePop less l).1 = l[0]? ∧ (slicePop less l).2.length = l.length - 1 ∧
      Ordered (sliceModel less key hless) (slicePop less l).2 (l.length - 1) ∧
      ∃ x, l[0]? = some x ∧ (x :: (slicePop less l).2).Perm l := by
  obtain ⟨hord, hsw, hitem⟩ := popDown_ordered (M := sliceModel less key hless) trivial hpos ho
  have hlen : (popDown (sliceInterface less) l).length = l.length := hsw.len_eq trivial
  have hfirst : (slicePop less l).1 = l[0]? := hitem
  obtain ⟨x, hx⟩ : ∃ x, l[0]? = some x := ⟨l[0], List.getElem?_eq_getElem hpos⟩
  refine ⟨hfirst, by simp [slicePop, hlen], ?_, x, hx, ?_⟩
  · exact ordered_of_prefix (fun k hk => by simp [slicePop, hk]) hord
  · have hperm := cons_take_perm (x := x) (by omega) (by rw [hlen]; exact hfirst.trans hx)
      hsw.slice_perm
    rw [hlen] at hperm
    exact hperm

/-- `heap.Remove(h, i)` from a heap slice returns its element at `i` and leaves a heap of the
others. -/
theorem sliceRemove_spec {l : List β} {i : Nat} (hi : i < l.length)
    (ho : Ordered (sliceModel less key hless) l l.length) :
    (sliceRemove less l i).1 = l[i]? ∧ (sliceRemove less l i).2.length = l.length - 1 ∧
      Ordered (sliceModel less key hless) (sliceRemove less l i).2 (l.length - 1) ∧
      ∃ x, l[i]? = some x ∧ (x :: (sliceRemove less l i).2).Perm l := by
  obtain ⟨hord, hsw, hitem⟩ := removeDown_ordered (M := sliceModel less key hless) trivial hi ho
  have hlen : (removeDown (sliceInterface less) l i).length = l.length := hsw.len_eq trivial
  have hfirst : (sliceRemove less l i).1 = l[i]? := hitem
  obtain ⟨x, hx⟩ : ∃ x, l[i]? = some x := ⟨l[i], List.getElem?_eq_getElem hi⟩
  refine ⟨hfirst, by simp [sliceRemove, hlen], ?_, x, hx, ?_⟩
  · exact ordered_of_prefix (fun k hk => by simp [sliceRemove, hk]) hord
  · have hperm := cons_take_perm (x := x) (by omega) (by rw [hlen]; exact hfirst.trans hx)
      hsw.slice_perm
    rw [hlen] at hperm
    exact hperm

/-- `heap.Init` makes a slice a heap of its elements. -/
theorem sliceInit_spec (l : List β) :
    Ordered (sliceModel less key hless) (init (sliceInterface less) l) l.length ∧
      (init (sliceInterface less) l).Perm l := by
  obtain ⟨hord, hsw⟩ := init_ordered (M := sliceModel less key hless) (s := l) trivial
  exact ⟨hord, hsw.slice_perm⟩

/-- Overwriting one element of a heap slice leaves it a heap but for that position. -/
theorem holeOrder_set {l : List β} {i : Nat} (x : β) (hi : i < l.length)
    (ho : Ordered (sliceModel less key hless) l l.length) :
    HoleOrder (sliceModel less key hless) (l.set i x) (l.set i x).length i := by
  have hkey : ∀ k, k ≠ i → keyAt (sliceModel less key hless) (l.set i x) k =
      keyAt (sliceModel less key hless) l k := by
    intro k hk
    show key (l.set i x)[k]? = key l[k]?
    rw [List.getElem?_set_ne (Ne.symm hk)]
  rw [List.length_set]
  constructor
  · intro c hc0 hcn hci hpci
    unfold InOrder
    rw [hkey c hci, hkey (parent c) hpci]
    exact ho c hc0 hcn (Nat.zero_le _)
  · intro hi0 c hc hcn
    have hp : parent i < i := parent_lt hi0
    rw [hkey (parent i) hp.ne, hkey c hc.gt.ne']
    calc keyAt (sliceModel less key hless) l (parent i)
        ≤ keyAt (sliceModel less key hless) l i := ho i hi0 hi (Nat.zero_le _)
      _ ≤ keyAt (sliceModel less key hless) l c := by
        have := ho c hc.1 hcn (Nat.zero_le _)
        unfold InOrder at this
        rwa [hc.2] at this

/-- `h[i] = x; heap.Fix(h, i)` on a heap slice gives a heap of the slice with `x` for `h[i]`. -/
theorem sliceFix_set_spec {l : List β} {i : Nat} (x : β) (hi : i < l.length)
    (ho : Ordered (sliceModel less key hless) l l.length) :
    Ordered (sliceModel less key hless) (fix (sliceInterface less) (l.set i x) i) l.length ∧
      (fix (sliceInterface less) (l.set i x) i).Perm (l.set i x) := by
  have hlen : (l.set i x).length = l.length := List.length_set
  obtain ⟨hord, hsw⟩ := fix_ordered (M := sliceModel less key hless) (s := l.set i x) trivial
    (by show i < (l.set i x).length; rw [hlen]; exact hi) (holeOrder_set x hi ho)
  refine ⟨?_, hsw.slice_perm⟩
  have h1 : (sliceInterface less).len (l.set i x) = l.length := hlen
  rw [h1] at hord
  exact hord

end Slices

end GoHeap
