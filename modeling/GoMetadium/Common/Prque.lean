import Mathlib
import GoMetadium.Common.Sstack

set_option autoImplicit false

/-! # The priority queue (`common/prque/prque.go`)

`Prque` runs `container/heap` on an `sstack` (`sstackInterface`). `Push` allocates an
`item{data, priority}` and calls `heap.Push`, `Pop` calls `heap.Pop`, `Remove(i)` calls
`heap.Remove` for `i ≥ 0`, and `Reset` starts a new stack with the same callback.

`Less(i, j)` is `a - b > 0` in `int64`, which orders no more than half of the `int64` circle.
While every priority in the queue is one of the `2^63` values from some `base` on, as the
package asks, it is the order of the offsets from `base` (`sstackModel base`), and the heap
library applies to the stack as it is, blocks and callback included.

`Prque.Inv` is what every allowed call keeps: the live cells are distinct pointers to allocated
items (`Sstack.Live`), the priorities fit a window, no child comes before its parent in the
order of `Less` (`HeapOrdered`, which names no window), and with a callback every live pointer
was last reported at its position (`Sstack.Tracked`). A pointer out of the queue keeps its last
report and never comes back (`step_spec`), so a popped item stays reported at `-1` (`run_frame`).
-/

namespace GoMetadium.Common

open GoMetadium.Go GoHeap

variable {α : Type}

/-! ## The heap of a stack -/

/-- `sstack` as a `heap.Interface`. -/
def sstackInterface : Interface (Sstack α) := ⟨Sstack.len, Sstack.less, Sstack.swap⟩

@[simp] theorem sstackInterface_len (s : Sstack α) : sstackInterface.len s = s.size := rfl

@[simp] theorem sstackInterface_swap (s : Sstack α) (i j : Nat) :
    sstackInterface.swap s i j = s.swap i j := rfl

/-- Every live priority is one of the `2^63` values from `base` on, modulo `2^64`. -/
def InWindow (base : Int) (s : Sstack α) : Prop :=
  ∀ k, k < s.size → 0 ≤ wrapI64 (s.priorityAt k - base)

/-- The key of an item: the offset of its priority from `base`, the larger first. -/
def windowKey (base : Int) (x : Option Nat × Int) : OrderDual Int :=
  OrderDual.toDual (wrapI64 (x.2 - base))

namespace Sstack

variable {s : Sstack α} {i j : Nat}

theorem swap_cell (hinv : s.Inv) (hi : i < s.size) (hj : j < s.size) (k : Nat) :
    (s.swap i j).cell k = if k = i then s.cell j else if k = j then s.cell i else s.cell k :=
  (swap_spec hinv (Nat.lt_of_lt_of_le hi (size_le_capacity hinv))
    (Nat.lt_of_lt_of_le hj (size_le_capacity hinv))).2 k

theorem swap_priorityAt (hinv : s.Inv) (hi : i < s.size) (hj : j < s.size) (k : Nat) :
    (s.swap i j).priorityAt k =
      if k = i then s.priorityAt j else if k = j then s.priorityAt i else s.priorityAt k := by
  unfold priorityAt
  rw [swap_cell hinv hi hj k, swap_mem]
  split_ifs <;> rfl

end Sstack

/-- The stack read as a heap of priorities within the window from `base`. -/
def sstackModel (base : Int) :
    Model (sstackInterface (α := α)) (Option Nat × Int) (OrderDual Int) where
  item s k := (s.cell k, s.priorityAt k)
  key := windowKey base
  Good s := s.Inv ∧ InWindow base s
  good_swap {s i j} hg hi hj := by
    have hcap := Sstack.size_le_capacity hg.1
    refine ⟨(Sstack.swap_spec hg.1 (Nat.lt_of_lt_of_le hi hcap) (Nat.lt_of_lt_of_le hj hcap)).1,
      ?_⟩
    intro k hk
    change k < (s.swap i j).size at hk
    show 0 ≤ wrapI64 ((s.swap i j).priorityAt k - base)
    rw [Sstack.swap_size] at hk
    rw [Sstack.swap_priorityAt hg.1 hi hj k]
    split_ifs
    · exact hg.2 j hj
    · exact hg.2 i hi
    · exact hg.2 k hk
  len_swap {s i j} _ _ _ := Sstack.swap_size s i j
  item_swap {s i j} k hg hi hj := by
    show ((s.swap i j).cell k, (s.swap i j).priorityAt k) = _
    rw [Sstack.swap_cell hg.1 hi hj k, Sstack.swap_priorityAt hg.1 hi hj k]
    split_ifs <;> rfl
  less_eq {s i j} hg hi hj := by
    show decide (wrapI64 (s.priorityAt i - s.priorityAt j) > 0) =
      decide (windowKey base (s.cell i, s.priorityAt i) < windowKey base (s.cell j, s.priorityAt j))
    apply decide_eq_decide.mpr
    unfold windowKey
    rw [OrderDual.toDual_lt_toDual, wrapI64_sub_of_window (hg.2 i hi) (hg.2 j hj)]
    dsimp only
    constructor <;> intro h <;> omega

/-- No child comes before its parent in the order of `Less`. -/
def HeapOrdered (s : Sstack α) : Prop :=
  ∀ c, 0 < c → c < s.size → s.less c (parent c) = false

/-- Inside a window, the heap order of the library is the order of `Less`. -/
theorem ordered_iff_heapOrdered {base : Int} {s : Sstack α} (hg : (sstackModel base).Good s) :
    Ordered (sstackModel base) s s.size ↔ HeapOrdered s := by
  constructor
  · intro ho c hc0 hcn
    have hp : parent c < s.size := Nat.lt_trans (parent_lt hc0) hcn
    have hlt := less_iff (M := sstackModel base) hg (i := c) (j := parent c) hcn hp
    cases hl : s.less c (parent c) with
    | false => rfl
    | true => exact absurd (hlt.mp hl) (not_lt.mpr (ho c hc0 hcn (Nat.zero_le _)))
  · intro hho c hc0 hcn _
    have hp : parent c < s.size := Nat.lt_trans (parent_lt hc0) hcn
    have hlt := less_iff (M := sstackModel base) hg (i := c) (j := parent c) hcn hp
    unfold InOrder
    apply not_lt.mp
    intro h
    have hl : s.less c (parent c) = true := hlt.mpr h
    rw [hho c hc0 hcn] at hl
    cases hl

/-- The root of a heap in a window comes before no item. -/
theorem root_first {base : Int} {s : Sstack α} (hg : (sstackModel base).Good s)
    (ho : HeapOrdered s) {k : Nat} (hk : k < s.size) :
    ¬ wrapI64 (s.priorityAt k - s.priorityAt 0) > 0 := by
  have hle := ((ordered_iff_heapOrdered hg).mpr ho).root_le k hk
  have h0 : 0 < s.size := by omega
  change windowKey base (s.cell 0, s.priorityAt 0) ≤ windowKey base (s.cell k, s.priorityAt k)
    at hle
  unfold windowKey at hle
  rw [OrderDual.toDual_le_toDual] at hle
  dsimp only at hle
  rw [wrapI64_sub_of_window (hg.2 k hk) (hg.2 0 h0)]
  omega

/-! ## Live cells and reports -/

namespace Sstack

/-- The live cells hold distinct pointers to allocated items. -/
structure Live (s : Sstack α) : Prop where
  inv : s.Inv
  nodup : s.flat.Nodup
  alloc : ∀ k, k < s.size → ∃ p, s.cell k = some p ∧ p < s.mem.length

/-- With a callback, every live pointer was last reported at its position. -/
def Tracked (s : Sstack α) : Prop :=
  s.setIndex = true → ∀ k, k < s.size → ∀ p, s.cell k = some p →
    lastReport s.reports p = some (k : Int)

theorem mem_flat {s : Sstack α} {x : Option Nat} : x ∈ s.flat ↔ ∃ k, k < s.size ∧ s.cell k = x := by
  unfold flat
  simp [List.mem_map, List.mem_range]

/-- No pointer is in two live cells. -/
theorem Live.cell_inj {s : Sstack α} (hl : s.Live) {k k' p : Nat} (hk : k < s.size)
    (hk' : k' < s.size) (h : s.cell k = some p) (h' : s.cell k' = some p) : k = k' := by
  have heq : s.flat[k]? = s.flat[k']? := by
    rw [flat_getElem?, flat_getElem?, if_pos hk, if_pos hk', h, h']
  exact (List.getElem?_inj (by rw [flat_length]; exact hk) hl.nodup).mp heq

variable {s : Sstack α} {i j : Nat}

theorem swap_live (hl : s.Live) (hi : i < s.size) (hj : j < s.size) : (s.swap i j).Live := by
  have hcap := size_le_capacity hl.inv
  constructor
  · exact (swap_spec hl.inv (Nat.lt_of_lt_of_le hi hcap) (Nat.lt_of_lt_of_le hj hcap)).1
  · rw [flat_swap hl.inv hi hj]
    exact (listSwap_perm _ _ _).nodup_iff.mpr hl.nodup
  · intro k hk
    rw [swap_size] at hk
    rw [swap_cell hl.inv hi hj k, swap_mem]
    split_ifs
    · exact hl.alloc j hj
    · exact hl.alloc i hi
    · exact hl.alloc k hk

/-- `Swap` reports the two items it moves at their new positions. -/
theorem swap_tracked (hl : s.Live) (ht : s.Tracked) (hi : i < s.size) (hj : j < s.size) :
    (s.swap i j).Tracked := by
  intro hset k hk p hp
  rw [swap_setIndex] at hset
  rw [swap_size] at hk
  rw [swap_reports, if_pos hset, lastReport_append_pair]
  rw [swap_cell hl.inv hi hj k] at hp
  by_cases hki : k = i
  -- the item from `j` is now at `i`
  · rw [if_pos hki] at hp
    by_cases hip : s.cell i = some p
    · have hij : i = j := hl.cell_inj hi hj hip hp
      rw [if_pos hip, hki, hij]
    · rw [if_neg hip, if_pos hp, hki]
  · rw [if_neg hki] at hp
    by_cases hkj : k = j
    · rw [if_pos hkj] at hp
      rw [if_pos hp, hkj]
    -- an item that did not move was reported nowhere else
    · rw [if_neg hkj] at hp
      have hip : s.cell i ≠ some p := fun h => hki (hl.cell_inj hk hi hp h)
      have hjp : s.cell j ≠ some p := fun h => hkj (hl.cell_inj hk hj hp h)
      rw [if_neg hip, if_neg hjp]
      exact ht hset k hk p hp

/-- `Swap` reports nothing of a pointer out of the stack, and does not bring it in. -/
theorem swap_frame (hl : s.Live) (hi : i < s.size) (hj : j < s.size) {p : Nat}
    (hp : some p ∉ s.flat) :
    lastReport (s.swap i j).reports p = lastReport s.reports p ∧ some p ∉ (s.swap i j).flat := by
  have hip : s.cell i ≠ some p := fun h => hp (mem_flat.mpr ⟨i, hi, h⟩)
  have hjp : s.cell j ≠ some p := fun h => hp (mem_flat.mpr ⟨j, hj, h⟩)
  constructor
  · rw [swap_reports]
    split
    · rw [lastReport_append_pair, if_neg hip, if_neg hjp]
    · rfl
  · rw [flat_swap hl.inv hi hj]
    exact fun h => hp ((listSwap_perm _ _ _).mem_iff.mp h)

end Sstack

/-- What a run of swaps keeps: the live cells and their reports, and the reports of every
pointer out of the stack. -/
theorem Swaps.keeps {base : Int} {lo n : Nat} {s t : Sstack α}
    (hsw : Swaps (sstackModel base) lo n s t) (hl : s.Live) (ht : s.Tracked) :
    t.Live ∧ t.Tracked ∧ t.setIndex = s.setIndex ∧ t.mem = s.mem ∧ t.flat.Perm s.flat ∧
      ∀ p, some p ∉ s.flat → lastReport t.reports p = lastReport s.reports p := by
  induction hsw with
  | refl => exact ⟨hl, ht, rfl, rfl, List.Perm.refl _, fun _ _ => rfl⟩
  | @swap s _ i j _ hn _ hi _ hj _ ih =>
    rw [sstackInterface_swap] at ih
    rw [sstackInterface_len] at hn
    have hi' : i < s.size := Nat.lt_of_lt_of_le hi hn
    have hj' : j < s.size := Nat.lt_of_lt_of_le hj hn
    obtain ⟨hl', ht', hset, hmem, hperm, hframe⟩ :=
      ih (Sstack.swap_live hl hi' hj') (Sstack.swap_tracked hl ht hi' hj')
    refine ⟨hl', ht', hset.trans (Sstack.swap_setIndex s i j), hmem.trans (Sstack.swap_mem s i j),
      hperm.trans ?_, ?_⟩
    · rw [Sstack.flat_swap hl.inv hi' hj']
      exact listSwap_perm _ _ _
    · intro p hp
      obtain ⟨hrep, hnot⟩ := Sstack.swap_frame hl hi' hj' hp
      rw [hframe p hnot, hrep]

/-! ## Push and Pop of the stack -/

/-- `&item{data, priority}`: a new item in memory, at the next pointer. -/
def allocItem (s : Sstack α) (x : Item α) : Sstack α := { s with mem := s.mem ++ [x] }

@[simp] theorem allocItem_size (s : Sstack α) (x : Item α) : (allocItem s x).size = s.size := rfl

@[simp] theorem allocItem_cell (s : Sstack α) (x : Item α) (k : Nat) :
    (allocItem s x).cell k = s.cell k := rfl

@[simp] theorem allocItem_flat (s : Sstack α) (x : Item α) : (allocItem s x).flat = s.flat := rfl

@[simp] theorem allocItem_setIndex (s : Sstack α) (x : Item α) :
    (allocItem s x).setIndex = s.setIndex := rfl

@[simp] theorem allocItem_reports (s : Sstack α) (x : Item α) :
    (allocItem s x).reports = s.reports := rfl

theorem allocItem_inv {s : Sstack α} (hinv : s.Inv) (x : Item α) : (allocItem s x).Inv :=
  ⟨hinv.blocks_len, hinv.capacity_eq, hinv.active_lt, hinv.size_eq, hinv.offset_le⟩

namespace Sstack

variable {s : Sstack α}

theorem allocItem_priorityAt (hl : s.Live) (x : Item α) {k : Nat} (hk : k < s.size) :
    (allocItem s x).priorityAt k = s.priorityAt k := by
  obtain ⟨p, hp, hlt⟩ := hl.alloc k hk
  unfold priorityAt
  show (((s.cell k).bind fun p => (s.mem ++ [x])[p]?).map Item.priority).getD 0 = _
  rw [hp, Option.bind_some, Option.bind_some, List.getElem?_append_left hlt]

/-- `h.Push` of a new pointer: a new live cell at the end, reported there. -/
theorem push_alloc (hl : s.Live) (ht : s.Tracked) (x : Item α) :
    ((allocItem s x).push s.mem.length).Live ∧ ((allocItem s x).push s.mem.length).Tracked ∧
      ((allocItem s x).push s.mem.length).size = s.size + 1 ∧
      (∀ k, k < s.size → ((allocItem s x).push s.mem.length).cell k = s.cell k ∧
        ((allocItem s x).push s.mem.length).priorityAt k = s.priorityAt k) ∧
      ((allocItem s x).push s.mem.length).priorityAt s.size = x.priority ∧
      ∀ p, p < s.mem.length → some p ∉ s.flat →
        lastReport ((allocItem s x).push s.mem.length).reports p = lastReport s.reports p ∧
          some p ∉ ((allocItem s x).push s.mem.length).flat := by
  have hinv : (allocItem s x).Inv := allocItem_inv hl.inv x
  obtain ⟨hinv', hsize, hcells, hlast⟩ := push_spec hinv s.mem.length
  rw [allocItem_size] at hsize hcells hlast
  have hflat : ((allocItem s x).push s.mem.length).flat = s.flat ++ [some s.mem.length] := by
    rw [flat_push hinv s.mem.length, allocItem_flat]
  have hfresh : some s.mem.length ∉ s.flat := by
    intro h
    obtain ⟨k, hk, hcell⟩ := mem_flat.mp h
    obtain ⟨p, hp, hlt⟩ := hl.alloc k hk
    rw [hp, Option.some.injEq] at hcell
    omega
  have hmem : ((allocItem s x).push s.mem.length).mem = s.mem ++ [x] := push_mem _ _
  have hcell_old : ∀ k, k < s.size → ((allocItem s x).push s.mem.length).cell k = s.cell k :=
    fun k hk => (hcells k hk).trans (allocItem_cell s x k)
  have hprio_old : ∀ k, k < s.size →
      ((allocItem s x).push s.mem.length).priorityAt k = s.priorityAt k := by
    intro k hk
    rw [← allocItem_priorityAt hl x hk]
    unfold priorityAt
    rw [hcell_old k hk, hmem]
    rfl
  refine ⟨⟨hinv', ?_, ?_⟩, ?_, hsize, fun k hk => ⟨hcell_old k hk, hprio_old k hk⟩, ?_, ?_⟩
  · rw [hflat, List.nodup_append]
    exact ⟨hl.nodup, List.nodup_singleton _, fun a ha b hb => by
      rw [List.mem_singleton.mp hb]
      exact fun h => hfresh (h ▸ ha)⟩
  · intro k hk
    rw [hsize] at hk
    rw [hmem, List.length_append, List.length_singleton]
    by_cases hks : k < s.size
    · obtain ⟨p, hp, hlt⟩ := hl.alloc k hks
      exact ⟨p, by rw [hcell_old k hks, hp], by omega⟩
    · have hk' : k = s.size := by omega
      exact ⟨s.mem.length, by rw [hk', hlast], by omega⟩
  -- the new pointer is reported at the end, and no other pointer is reported
  · intro hset k hk p hp
    rw [push_setIndex] at hset
    rw [push_reports, if_pos hset]
    rw [hsize] at hk
    by_cases hks : k < s.size
    · rw [hcell_old k hks] at hp
      obtain ⟨q, hq, hlt⟩ := hl.alloc k hks
      rw [hq, Option.some.injEq] at hp
      have hne : p ≠ s.mem.length := by omega
      rw [lastReport_append_of_ne (fun r hr => by
        rw [List.mem_singleton.mp hr]
        exact fun h => hne (Option.some.inj h).symm)]
      exact ht hset k hks p (hq.trans (by rw [hp]))
    · have hk' : k = s.size := by omega
      rw [hk', hlast, Option.some.injEq] at hp
      rw [← hp, hk']
      exact lastReport_append_self _ _ _
  · unfold priorityAt
    rw [hlast, hmem]
    simp
  · intro p hlt hp
    constructor
    · rw [push_reports]
      split
      · apply lastReport_append_of_ne
        intro r hr
        rw [List.mem_singleton.mp hr]
        exact fun h => by rw [Option.some.injEq] at h; omega
      · rfl
    · rw [hflat]
      intro h
      rcases List.mem_append.mp h with h | h
      · exact hp h
      · rw [List.mem_singleton, Option.some.injEq] at h
        omega

variable (hl : s.Live) (hpos : 0 < s.size)
include hl hpos

/-- `h.Pop()` keeps the cells below the last and their priorities. -/
theorem pop_cells (k : Nat) (hk : k < s.size - 1) :
    s.pop.2.cell k = s.cell k ∧ s.pop.2.priorityAt k = s.priorityAt k := by
  obtain ⟨-, -, -, hcells⟩ := pop_spec hl.inv hpos
  refine ⟨hcells k hk, ?_⟩
  unfold priorityAt
  rw [hcells k hk, pop_mem]

theorem pop_live : s.pop.2.Live := by
  obtain ⟨-, hinv, hsize, hcells⟩ := pop_spec hl.inv hpos
  refine ⟨hinv, ?_, ?_⟩
  · rw [(flat_pop hl.inv hpos).2]
    exact hl.nodup.sublist (List.dropLast_sublist _)
  · intro k hk
    rw [hsize] at hk
    obtain ⟨p, hp, hlt⟩ := hl.alloc k (by omega)
    exact ⟨p, by rw [hcells k hk, hp], by rw [pop_mem]; exact hlt⟩

theorem pop_tracked (ht : s.Tracked) : s.pop.2.Tracked := by
  obtain ⟨hres, -, hsize, hcells⟩ := pop_spec hl.inv hpos
  intro hset k hk p hp
  rw [pop_setIndex] at hset
  rw [hsize] at hk
  rw [hcells k hk] at hp
  rw [pop_reports, if_pos hset]
  have hne : s.pop.1 ≠ some p := by
    rw [hres]
    intro h
    have := hl.cell_inj (by omega) (by omega) h hp
    omega
  rw [lastReport_append_of_ne (fun r hr => by rw [List.mem_singleton.mp hr]; exact hne)]
  exact ht hset k (by omega) p hp

omit hl hpos in
/-- With a callback, the popped pointer is last reported at `-1`. -/
theorem pop_reported (hset : s.setIndex = true) {p : Nat} (hp : s.pop.1 = some p) :
    lastReport s.pop.2.reports p = some (-1) := by
  rw [pop_reports, if_pos hset, hp]
  exact lastReport_append_self _ _ _

theorem pop_frame {p : Nat} (hp : some p ∉ s.flat) :
    lastReport s.pop.2.reports p = lastReport s.reports p ∧ some p ∉ s.pop.2.flat := by
  obtain ⟨hres, -, -, -⟩ := pop_spec hl.inv hpos
  have hne : s.pop.1 ≠ some p := by
    rw [hres]
    exact fun h => hp (mem_flat.mpr ⟨s.size - 1, by omega, h⟩)
  constructor
  · rw [pop_reports]
    split
    · exact lastReport_append_of_ne (fun r hr => by rw [List.mem_singleton.mp hr]; exact hne)
    · rfl
  · rw [(flat_pop hl.inv hpos).2]
    exact fun h => hp ((List.dropLast_sublist _).subset h)

end Sstack

/-- A permutation of `l'` without its last element `x` is `l'` without `x`. -/
theorem dropLast_perm_erase {β : Type} [BEq β] [LawfulBEq β] {l l' : List β} {x : β}
    (hperm : l.Perm l') (hx : l.getLast? = some x) : l.dropLast.Perm (l'.erase x) := by
  have hl : l.dropLast ++ [x] = l := List.dropLast_append_getLast? _ hx
  have hcons : (x :: l.dropLast).Perm l' := by
    apply (List.perm_append_singleton x _).symm.trans
    rw [hl]
    exact hperm
  have herase := hcons.erase x
  rw [List.erase_cons_head] at herase
  exact herase

/-- After swaps that permute the cells of `s`, `h.Pop()` leaves those of `s` but the popped one. -/
theorem Sstack.pop_perm_erase {s t : Sstack α} (hinv : t.Inv) (hpos : 0 < t.size)
    (hperm : t.flat.Perm s.flat) : t.pop.2.flat.Perm (s.flat.erase t.pop.1) := by
  have hlast : t.flat.getLast? = some t.pop.1 := by
    rw [(Sstack.pop_spec hinv hpos).1, List.getLast?_eq_getElem?, Sstack.flat_length,
      Sstack.flat_getElem?, if_pos (by omega)]
  rw [(Sstack.flat_pop hinv hpos).2]
  exact dropLast_perm_erase hperm hlast

/-- The end of `heap.Pop` and `heap.Remove`: after swaps that leave a heap on all but the last
position, `h.Pop()` takes the last item off and leaves a heap in the same window. -/
theorem sift_pop {base : Int} {s t : Sstack α} (hg : (sstackModel base).Good s)
    (hl : s.Live) (ht : s.Tracked) (hpos : 0 < s.size)
    (hsw : Swaps (sstackModel base) 0 s.size s t)
    (hord : Ordered (sstackModel base) t (s.size - 1)) :
    (sstackModel base).Good t.pop.2 ∧ HeapOrdered t.pop.2 ∧ t.pop.2.size = s.size - 1 := by
  have hgt : (sstackModel base).Good t := hsw.good hg
  have hlen : t.size = s.size := hsw.len_eq hg
  obtain ⟨hlt, -, -, -, -, -⟩ := Swaps.keeps hsw hl ht
  have htpos : 0 < t.size := by omega
  obtain ⟨-, hinv, hsize, -⟩ := Sstack.pop_spec hgt.1 htpos
  have hcells := Sstack.pop_cells hlt htpos
  have hgood : (sstackModel base).Good t.pop.2 := by
    refine ⟨hinv, fun k hk => ?_⟩
    rw [hsize] at hk
    rw [(hcells k hk).2]
    exact hgt.2 k (by omega)
  refine ⟨hgood, ?_, by rw [hsize, hlen]⟩
  apply (ordered_iff_heapOrdered hgood).mp
  rw [hsize, hlen]
  apply hord.of_item_eq
  intro k hk
  show (t.pop.2.cell k, t.pop.2.priorityAt k) = (t.cell k, t.priorityAt k)
  rw [(hcells k (by omega)).1, (hcells k (by omega)).2]

/-! ## The queue -/

/-- `Prque`. -/
structure Prque (α : Type) where
  cont : Sstack α

namespace Prque

/-- `New(setIndex)`, in a memory with no items yet and no reports. -/
def new (setIndex : Bool) : Prque α := ⟨newSstack setIndex [] []⟩

/-- `Push(data, priority)`: `heap.Push(p.cont, &item{data, priority})`. -/
def push (q : Prque α) (data : α) (priority : Int) : Prque α :=
  ⟨pushUp sstackInterface ((allocItem q.cont ⟨data, priority⟩).push q.cont.mem.length)⟩

/-- `Peek()`: the item of `blocks[0][0]`. -/
def peek (q : Prque α) : Option (Item α) := (cellAt q.cont.blocks 0 0).bind fun p => q.cont.mem[p]?

/-- `Pop()`: `heap.Pop(p.cont)`, and the item's value and priority. -/
def pop (q : Prque α) : Option (Item α) × Prque α :=
  let r := (popDown sstackInterface q.cont).pop
  (r.1.bind fun p => r.2.mem[p]?, ⟨r.2⟩)

/-- `PopItem()`. -/
def popItem (q : Prque α) : Option α × Prque α := (q.pop.1.map Item.value, q.pop.2)

/-- `Remove(i)`: `nil` for a negative `i`, else `heap.Remove(p.cont, i)`, which returns the
`*item` itself. -/
def remove (q : Prque α) (i : Int) : Option Nat × Prque α :=
  if i < 0 then (none, q)
  else
    let r := (removeDown sstackInterface q.cont i.toNat).pop
    (r.1, ⟨r.2⟩)

/-- `Empty()`. -/
def empty (q : Prque α) : Bool := q.cont.len == 0

/-- `Size()`. -/
def size (q : Prque α) : Nat := q.cont.len

/-- `Reset()`: `*p = *New(p.cont.setIndex)`. -/
def reset (q : Prque α) : Prque α := ⟨q.cont.reset⟩

/-- The calls of a run. -/
inductive Op (α : Type) where
  | push (data : α) (priority : Int)
  | pop
  | remove (i : Int)
  | reset

/-- One call. -/
def step (q : Prque α) : Op α → Prque α
  | .push data priority => q.push data priority
  | .pop => q.pop.2
  | .remove i => (q.remove i).2
  | .reset => q.reset

/-- The calls Go makes without a panic, with the priorities the package asks for: a pushed
priority keeps the queue in a window of `2^63` values, `Pop` has an item to pop, and `Remove(i)`
is of a position in the queue, or negative. -/
def Allowed (q : Prque α) : Op α → Prop
  | .push _ priority => ∃ base, InWindow base q.cont ∧ 0 ≤ wrapI64 (priority - base)
  | .pop => 0 < q.size
  | .remove i => i < q.size
  | .reset => True

/-- The calls one after another. -/
def run (q : Prque α) : List (Op α) → Prque α
  | [] => q
  | op :: ops => (q.step op).run ops

/-- Every call of the run allowed where it is made. -/
def RunAllowed : Prque α → List (Op α) → Prop
  | _, [] => True
  | q, op :: ops => q.Allowed op ∧ (q.step op).RunAllowed ops

/-- What every allowed call keeps. -/
structure Inv (q : Prque α) : Prop where
  live : q.cont.Live
  window : ∃ base, InWindow base q.cont
  ordered : HeapOrdered q.cont
  tracked : q.cont.Tracked

/-- A pointer out of the queue keeps its last report and stays out, and no item is freed. -/
def Frame (q q' : Prque α) : Prop :=
  q.cont.mem.length ≤ q'.cont.mem.length ∧
    ∀ p, p < q.cont.mem.length → some p ∉ q.cont.flat →
      lastReport q'.cont.reports p = lastReport q.cont.reports p ∧ some p ∉ q'.cont.flat

theorem newSstack_live (setIndex : Bool) (mem : List (Item α)) (reports : List (Option Nat × Int)) :
    (newSstack setIndex mem reports).Live := by
  refine ⟨⟨?_, rfl, by show 0 < 1; omega, rfl, by show 0 ≤ blockSize; omega⟩,
    by simp [Sstack.flat, newSstack],
    fun _ hk => absurd hk (Nat.not_lt_zero _)⟩
  intro blk hblk
  rw [List.mem_singleton.mp hblk, List.length_replicate]

theorem newSstack_inv (setIndex : Bool) (mem : List (Item α))
    (reports : List (Option Nat × Int)) : (⟨newSstack setIndex mem reports⟩ : Prque α).Inv where
  live := newSstack_live setIndex mem reports
  window := ⟨0, fun _ hk => absurd hk (Nat.not_lt_zero _)⟩
  ordered := fun _ _ hc => absurd hc (Nat.not_lt_zero _)
  tracked := fun _ _ hk => absurd hk (Nat.not_lt_zero _)

theorem new_inv (setIndex : Bool) : (new setIndex : Prque α).Inv := newSstack_inv _ _ _

variable {q : Prque α}

theorem reset_spec : q.reset.Inv ∧ Frame q q.reset := by
  refine ⟨newSstack_inv _ _ _, le_rfl, fun p _ _ => ⟨rfl, ?_⟩⟩
  simp [reset, Sstack.reset, Sstack.flat, newSstack]

/-- `Push` keeps the invariant, and the pointer it allocates is the only new one: it holds the
item pushed, and the queue holds it beside the items it held. -/
theorem push_spec (hinv : q.Inv) {data : α} {priority : Int}
    (hal : q.Allowed (.push data priority)) :
    (q.push data priority).Inv ∧ Frame q (q.push data priority) ∧
      (q.push data priority).cont.mem = q.cont.mem ++ [⟨data, priority⟩] ∧
      (q.push data priority).cont.flat.Perm (q.cont.flat ++ [some q.cont.mem.length]) := by
  obtain ⟨base, hwin, hnew⟩ := hal
  have hg : (sstackModel base).Good q.cont := ⟨hinv.live.inv, hwin⟩
  obtain ⟨hlt, htt, hsize, hbelow, hlast, hframe⟩ :=
    Sstack.push_alloc hinv.live hinv.tracked ⟨data, priority⟩
  -- `t` is the stack after `h.Push(x)`, before `up`
  set t := (allocItem q.cont ⟨data, priority⟩).push q.cont.mem.length with ht_def
  have hgt : (sstackModel base).Good t := by
    refine ⟨hlt.inv, fun k hk => ?_⟩
    rw [hsize] at hk
    by_cases hks : k < q.cont.size
    · rw [(hbelow k hks).2]
      exact hwin k hks
    · rw [show k = q.cont.size by omega, hlast]
      exact hnew
  have hord : Ordered (sstackModel base) t (sstackInterface.len t - 1) := by
    rw [sstackInterface_len, hsize, Nat.add_sub_cancel]
    apply ((ordered_iff_heapOrdered hg).mpr hinv.ordered).of_item_eq
    intro k hk
    show (t.cell k, t.priorityAt k) = (q.cont.cell k, q.cont.priorityAt k)
    rw [(hbelow k hk).1, (hbelow k hk).2]
  obtain ⟨hup, hsw⟩ := pushUp_ordered hgt (by rw [sstackInterface_len, hsize]; omega) hord
  obtain ⟨hl', ht', -, hmem', hperm, hframe'⟩ := Swaps.keeps hsw hlt htt
  have hg' : (sstackModel base).Good (pushUp sstackInterface t) := hsw.good hgt
  have hlen' : (pushUp sstackInterface t).size = t.size := hsw.len_eq hgt
  -- `t` holds the old items and the new pointer, at the end of the memory
  have htflat : t.flat = q.cont.flat ++ [some q.cont.mem.length] := by
    rw [ht_def, Sstack.flat_push (allocItem_inv hinv.live.inv _), allocItem_flat]
  have htmem : t.mem = q.cont.mem ++ [⟨data, priority⟩] := by
    rw [ht_def, Sstack.push_mem]
    rfl
  refine ⟨⟨hl', ⟨base, hg'.2⟩, ?_, ht'⟩, ⟨?_, ?_⟩, hmem'.trans htmem, htflat ▸ hperm⟩
  · apply (ordered_iff_heapOrdered hg').mp
    rw [hlen']
    exact hup
  · show q.cont.mem.length ≤ (pushUp sstackInterface t).mem.length
    rw [hmem', ht_def, Sstack.push_mem]
    simp [allocItem]
  · intro p hp hout
    obtain ⟨hrep, hnot⟩ := hframe p hp hout
    refine ⟨(hframe' p hnot).trans hrep, fun h => hnot (hperm.mem_iff.mp h)⟩

/-- The sifting half of `heap.Pop`, then `h.Pop()`: what it keeps and what it returns. -/
theorem popDown_pop (hinv : q.Inv) (hpos : 0 < q.cont.size) :
    q.pop.2.Inv ∧ Frame q q.pop.2 ∧ (popDown sstackInterface q.cont).pop.1 = q.cont.cell 0 ∧
      (popDown sstackInterface q.cont).mem = q.cont.mem ∧
      (popDown sstackInterface q.cont).setIndex = q.cont.setIndex ∧
      q.pop.2.cont.flat.Perm (q.cont.flat.erase (q.cont.cell 0)) := by
  obtain ⟨base, hwin⟩ := hinv.window
  have hg : (sstackModel base).Good q.cont := ⟨hinv.live.inv, hwin⟩
  obtain ⟨hord, hsw, hitem⟩ := popDown_ordered hg hpos
    ((ordered_iff_heapOrdered hg).mpr hinv.ordered)
  rw [sstackInterface_len] at hord hsw hitem
  set t := popDown sstackInterface q.cont with ht_def
  obtain ⟨hg', hord', -⟩ := sift_pop hg hinv.live hinv.tracked hpos hsw hord
  obtain ⟨hlt, htt, hset, hmem, hperm, hframe⟩ := Swaps.keeps hsw hinv.live hinv.tracked
  have hlen : t.size = q.cont.size := hsw.len_eq hg
  have htpos : 0 < t.size := by rw [hlen]; exact hpos
  have hres : t.pop.1 = q.cont.cell 0 := by
    rw [(Sstack.pop_spec hlt.inv htpos).1, hlen]
    exact congrArg Prod.fst hitem
  refine ⟨⟨Sstack.pop_live hlt htpos, ⟨base, hg'.2⟩, hord', Sstack.pop_tracked hlt htpos htt⟩,
    ⟨?_, ?_⟩, hres, hmem, hset, ?_⟩
  · show q.cont.mem.length ≤ t.pop.2.mem.length
    rw [Sstack.pop_mem, hmem]
  · intro p _ hout
    have hout' : some p ∉ t.flat := fun h => hout (hperm.mem_iff.mp h)
    obtain ⟨hrep, hnot⟩ := Sstack.pop_frame hlt htpos hout'
    exact ⟨hrep.trans (hframe p hout), hnot⟩
  · show t.pop.2.flat.Perm _
    rw [← hres]
    exact Sstack.pop_perm_erase hlt.inv htpos hperm

/-- The sifting half of `heap.Remove(h, i)`, then `h.Pop()`. -/
theorem removeDown_pop (hinv : q.Inv) {i : Nat} (hi : i < q.cont.size) :
    (q.remove i).2.Inv ∧ Frame q (q.remove i).2 ∧ (q.remove i).1 = q.cont.cell i ∧
      (removeDown sstackInterface q.cont i).setIndex = q.cont.setIndex ∧
      (q.remove i).2 = ⟨(removeDown sstackInterface q.cont i).pop.2⟩ ∧
      (q.remove i).1 = (removeDown sstackInterface q.cont i).pop.1 ∧
      (q.remove i).2.cont.flat.Perm (q.cont.flat.erase (q.cont.cell i)) := by
  obtain ⟨base, hwin⟩ := hinv.window
  have hg : (sstackModel base).Good q.cont := ⟨hinv.live.inv, hwin⟩
  have hpos : 0 < q.cont.size := by omega
  obtain ⟨hord, hsw, hitem⟩ := removeDown_ordered hg hi
    ((ordered_iff_heapOrdered hg).mpr hinv.ordered)
  rw [sstackInterface_len] at hord hsw hitem
  set t := removeDown sstackInterface q.cont i with ht_def
  have hrem : q.remove (i : Int) = (t.pop.1, ⟨t.pop.2⟩) := by
    unfold remove
    rw [if_neg (by omega), Int.toNat_natCast]
  obtain ⟨hg', hord', -⟩ := sift_pop hg hinv.live hinv.tracked hpos hsw hord
  obtain ⟨hlt, htt, hset, hmem, hperm, hframe⟩ := Swaps.keeps hsw hinv.live hinv.tracked
  have hlen : t.size = q.cont.size := hsw.len_eq hg
  have htpos : 0 < t.size := by rw [hlen]; exact hpos
  have hres : t.pop.1 = q.cont.cell i := by
    rw [(Sstack.pop_spec hlt.inv htpos).1, hlen]
    exact congrArg Prod.fst hitem
  rw [hrem]
  refine ⟨⟨Sstack.pop_live hlt htpos, ⟨base, hg'.2⟩, hord', Sstack.pop_tracked hlt htpos htt⟩,
    ⟨?_, ?_⟩, hres, hset, rfl, rfl, ?_⟩
  · show q.cont.mem.length ≤ t.pop.2.mem.length
    rw [Sstack.pop_mem, hmem]
  · intro p _ hout
    have hout' : some p ∉ t.flat := fun h => hout (hperm.mem_iff.mp h)
    obtain ⟨hrep, hnot⟩ := Sstack.pop_frame hlt htpos hout'
    exact ⟨hrep.trans (hframe p hout), hnot⟩
  · show t.pop.2.flat.Perm _
    rw [← hres]
    exact Sstack.pop_perm_erase hlt.inv htpos hperm

theorem remove_neg {i : Int} (hi : i < 0) : q.remove i = (none, q) := by
  unfold remove
  rw [if_pos hi]

/-- Every allowed call keeps the invariant and the reports of pointers out of the queue. -/
theorem step_spec (hinv : q.Inv) {op : Op α} (hal : q.Allowed op) :
    (q.step op).Inv ∧ Frame q (q.step op) := by
  cases op with
  | push data priority =>
    obtain ⟨h1, h2, -⟩ := push_spec hinv hal
    exact ⟨h1, h2⟩
  | pop =>
    obtain ⟨h1, h2, -⟩ := popDown_pop hinv hal
    exact ⟨h1, h2⟩
  | remove i =>
    show (q.remove i).2.Inv ∧ Frame q (q.remove i).2
    by_cases hneg : i < 0
    · rw [remove_neg hneg]
      exact ⟨hinv, le_rfl, fun p _ _ => ⟨rfl, by assumption⟩⟩
    · have hi : i.toNat < q.cont.size := by
        have : i < q.cont.size := hal
        omega
      have hcast : i = (i.toNat : Int) := by omega
      rw [hcast]
      obtain ⟨h1, h2, -⟩ := removeDown_pop hinv hi
      exact ⟨h1, h2⟩
  | reset => exact reset_spec

theorem run_inv (ops : List (Op α)) :
    ∀ q : Prque α, q.Inv → q.RunAllowed ops → (q.run ops).Inv := by
  induction ops with
  | nil => intro q hinv _; exact hinv
  | cons op ops ih =>
    intro q hinv hal
    exact ih (q.step op) (step_spec hinv hal.1).1 hal.2

theorem Frame.trans {q q' q'' : Prque α} (h : Frame q q') (h' : Frame q' q'') : Frame q q'' := by
  refine ⟨h.1.trans h'.1, fun p hp hout => ?_⟩
  obtain ⟨hrep, hnot⟩ := h.2 p hp hout
  obtain ⟨hrep', hnot'⟩ := h'.2 p (Nat.lt_of_lt_of_le hp h.1) hnot
  exact ⟨hrep'.trans hrep, hnot'⟩

/-- Through a whole allowed run, a pointer out of the queue keeps its last report. -/
theorem run_frame (ops : List (Op α)) :
    ∀ q : Prque α, q.Inv → q.RunAllowed ops → Frame q (q.run ops) := by
  induction ops with
  | nil => intro q _ _; exact ⟨le_rfl, fun p _ hout => ⟨rfl, hout⟩⟩
  | cons op ops ih =>
    intro q hinv hal
    obtain ⟨hinv', hframe⟩ := step_spec hinv hal.1
    exact hframe.trans (ih (q.step op) hinv' hal.2)

/-! ## What the queue does -/

/-- `Pop` returns the item of the root, which `Peek` shows and no live item comes before in the
order of `Less`; the rest of the queue stays, and the callback reports the root at `-1`. -/
theorem pop_max (hinv : q.Inv) (hpos : 0 < q.size) :
    ∃ p r, q.cont.cell 0 = some p ∧ q.cont.mem[p]? = some r ∧ q.pop.1 = some r ∧
      q.peek = some r ∧ (∀ k, k < q.size → ¬ wrapI64 (q.cont.priorityAt k - r.priority) > 0) ∧
      q.pop.2.cont.flat.Perm (q.cont.flat.erase (some p)) ∧
      (q.cont.setIndex = true → lastReport q.pop.2.cont.reports p = some (-1)) := by
  obtain ⟨p, hp, hlt⟩ := hinv.live.alloc 0 hpos
  obtain ⟨-, -, hres, hmem, hset, hperm⟩ := popDown_pop hinv hpos
  have hr : q.cont.mem[p]? = some q.cont.mem[p] := List.getElem?_eq_getElem hlt
  have hprio : q.cont.priorityAt 0 = q.cont.mem[p].priority := by
    unfold Sstack.priorityAt
    rw [hp, Option.bind_some, hr]
    rfl
  obtain ⟨base, hwin⟩ := hinv.window
  refine ⟨p, q.cont.mem[p], hp, hr, ?_, ?_, ?_, ?_, ?_⟩
  · show ((popDown sstackInterface q.cont).pop.1.bind
      fun p => (popDown sstackInterface q.cont).pop.2.mem[p]?) = _
    rw [hres, hp, Sstack.pop_mem, hmem, Option.bind_some, hr]
  · show ((cellAt q.cont.blocks 0 0).bind fun p => q.cont.mem[p]?) = _
    rw [show cellAt q.cont.blocks 0 0 = q.cont.cell 0 from rfl, hp, Option.bind_some, hr]
  · intro k hk
    rw [← hprio]
    exact root_first ⟨hinv.live.inv, hwin⟩ hinv.ordered hk
  · rw [← hp]
    exact hperm
  · intro hsetq
    exact Sstack.pop_reported (by rw [hset]; exact hsetq) (hres.trans hp)

/-- With a callback, `Remove(i)` removes the live item last reported at `i`, leaves the rest,
and reports the removed item at `-1`. -/
theorem remove_reported (hinv : q.Inv) (hset : q.cont.setIndex = true) {i : Nat}
    (hi : i < q.size) {p : Nat} (hp : some p ∈ q.cont.flat)
    (hrep : lastReport q.cont.reports p = some (i : Int)) :
    (q.remove i).1 = some p ∧ (q.remove i).2.cont.flat.Perm (q.cont.flat.erase (some p)) ∧
      lastReport (q.remove i).2.cont.reports p = some (-1) := by
  obtain ⟨k, hk, hcell⟩ := Sstack.mem_flat.mp hp
  -- the live pointer is reported at its own position, so that position is `i`
  have hki : k = i := by
    have hk' := hinv.tracked hset k hk p hcell
    rw [hrep, Option.some.injEq] at hk'
    omega
  rw [hki] at hcell
  obtain ⟨-, -, hres, hset', hrem, hres', hperm⟩ := removeDown_pop hinv hi
  refine ⟨hres.trans hcell, by rw [← hcell]; exact hperm, ?_⟩
  rw [hrem]
  exact Sstack.pop_reported (by rw [hset']; exact hset) (hres'.symm.trans (hres.trans hcell))

/-- A correct indexed max-heap on blocks: the stack is a flat array of its size, `Push` adds a
fresh item holding its data and priority to the items in the queue, `Pop` returns
an item no live item comes before, and with a callback every live item was last reported at its
position, so that `Remove(i)` removes the live item last reported at `i`; a pointer out of the
queue, a popped one reported at `-1` among them, keeps its report through every later run. -/
structure IndexedMaxHeap (q : Prque α) : Prop where
  flat_length : q.cont.flat.length = q.size
  push_flat : ∀ p, (q.cont.push p).flat = q.cont.flat ++ [some p]
  push_item : ∀ data priority, q.Allowed (.push data priority) →
    (q.push data priority).cont.mem = q.cont.mem ++ [⟨data, priority⟩] ∧
      (q.push data priority).cont.flat.Perm (q.cont.flat ++ [some q.cont.mem.length])
  pop_flat : 0 < q.size →
    q.cont.pop.1 = q.cont.flat.getLast?.join ∧ q.cont.pop.2.flat = q.cont.flat.dropLast
  swap_flat : ∀ i j, i < q.size → j < q.size →
    (q.cont.swap i j).flat = listSwap q.cont.flat i j
  pop_max : 0 < q.size →
    ∃ p r, q.cont.cell 0 = some p ∧ q.cont.mem[p]? = some r ∧ q.pop.1 = some r ∧
      q.peek = some r ∧ (∀ k, k < q.size → ¬ wrapI64 (q.cont.priorityAt k - r.priority) > 0) ∧
      q.pop.2.cont.flat.Perm (q.cont.flat.erase (some p)) ∧
      (q.cont.setIndex = true → lastReport q.pop.2.cont.reports p = some (-1))
  tracked : q.cont.setIndex = true → ∀ k, k < q.size → ∀ p, q.cont.cell k = some p →
    lastReport q.cont.reports p = some (k : Int)
  remove_reported : q.cont.setIndex = true → ∀ i, i < q.size → ∀ p, some p ∈ q.cont.flat →
    lastReport q.cont.reports p = some (i : Int) →
      (q.remove i).1 = some p ∧ (q.remove i).2.cont.flat.Perm (q.cont.flat.erase (some p)) ∧
        lastReport (q.remove i).2.cont.reports p = some (-1)
  frame : ∀ ops, q.RunAllowed ops → Frame q (q.run ops)

theorem Inv.indexedMaxHeap (hinv : q.Inv) : q.IndexedMaxHeap where
  flat_length := Sstack.flat_length q.cont
  push_flat := Sstack.flat_push hinv.live.inv
  push_item := fun _ _ hal => (push_spec hinv hal).2.2
  pop_flat := Sstack.flat_pop hinv.live.inv
  swap_flat := fun _ _ hi hj => Sstack.flat_swap hinv.live.inv hi hj
  pop_max := pop_max hinv
  tracked := hinv.tracked
  remove_reported := fun hset _ hi _ hp hrep => remove_reported hinv hset hi hp hrep
  frame := fun ops hops => run_frame ops q hinv hops

end Prque

theorem prque_indexed_max_heap (setIndex : Bool) (ops : List (Prque.Op α))
    (hops : (Prque.new setIndex).RunAllowed ops) :
    ((Prque.new setIndex).run ops).IndexedMaxHeap :=
  (Prque.run_inv ops _ (Prque.new_inv setIndex) hops).indexedMaxHeap

/-- One push of priority `5` into a queue with a callback. -/
theorem prque_indexed_max_heap_push :
    (Prque.new true : Prque Nat).RunAllowed [.push 1 5] ∧
      ((Prque.new true : Prque Nat).run [.push 1 5]).IndexedMaxHeap :=
  have hops : (Prque.new true : Prque Nat).RunAllowed [.push 1 5] :=
    ⟨⟨5, fun _ hk => absurd hk (Nat.not_lt_zero _), by decide⟩, trivial⟩
  ⟨hops, prque_indexed_max_heap true _ hops⟩

end GoMetadium.Common
