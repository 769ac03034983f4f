import Mathlib
import GoMetadium.Lib.GoInt
import GoMetadium.Lib.Heap

set_option autoImplicit false

/-! # The block stack of the priority queue (`common/prque/sstack.go`)

`sstack` stores its items in blocks of `blockSize = 4096` pointers. `active` is a slice that
aliases one of the blocks, `offset` the next free cell in it, and `capacity` the cells of all
blocks. `Push` writes at `(active, offset)`, first switching to a new block when the stack is
full or to the next one when the active block is; `Pop` steps back, switching to the block
before when the offset goes below zero. No block is ever freed.

The pointers `*item` are positions in `mem`, the items allocated so far, and `nil` is `none`;
`active` is the index of the block the slice aliases. The `setIndex` callback, when there is
one, is recorded in `reports`: each call with the pointer whose value it was given.

`Inv` says where `(active, offset)` is: at position `size`, with every block full length. Under
it the stack is the flat array `flat` of its first `size` cells: `Push` appends (`flat_push`),
`Pop` takes off the last (`flat_pop`), and `Swap` swaps (`flat_swap`), across block boundaries.
-/

namespace GoMetadium.Common

open GoMetadium.Go GoHeap

/-- `blockSize`. -/
def blockSize : Nat := 4096

/-- `item`: a value and its `int64` priority. -/
structure Item (α : Type) where
  value : α
  priority : Int
  deriving DecidableEq, Repr

/-- `sstack`. -/
structure Sstack (α : Type) where
  setIndex : Bool
  size : Nat
  capacity : Nat
  offset : Nat
  blocks : List (List (Option Nat))
  active : Nat
  mem : List (Item α)
  reports : List (Option Nat × Int)

variable {α : Type}

/-- `blocks[b][o]`. -/
def cellAt (blocks : List (List (Option Nat))) (b o : Nat) : Option Nat :=
  (blocks[b]?.bind fun blk => blk[o]?).join

/-- `blocks[b][o] = x`. -/
def setCell (blocks : List (List (Option Nat))) (b o : Nat) (x : Option Nat) :
    List (List (Option Nat)) :=
  blocks.modify b fun blk => blk.set o x

/-- `newSstack(setIndex)`: one block of `nil`s. The items and the reports are not the stack's. -/
def newSstack (setIndex : Bool) (mem : List (Item α)) (reports : List (Option Nat × Int)) :
    Sstack α :=
  ⟨setIndex, 0, blockSize, 0, [List.replicate blockSize none], 0, mem, reports⟩

namespace Sstack

/-- The cell of position `k`: `s.blocks[k/blockSize][k%blockSize]`. -/
def cell (s : Sstack α) (k : Nat) : Option Nat := cellAt s.blocks (k / blockSize) (k % blockSize)

/-- The priority of the item the cell of position `k` points to. -/
def priorityAt (s : Sstack α) (k : Nat) : Int :=
  (((s.cell k).bind fun p => s.mem[p]?).map Item.priority).getD 0

/-- `Len()`. -/
def len (s : Sstack α) : Nat := s.size

/-- `Less(i, j)`: `(s.blocks[i/blockSize][i%blockSize].priority -
s.blocks[j/blockSize][j%blockSize].priority) > 0`, the difference in `int64`. -/
def less (s : Sstack α) (i j : Nat) : Bool :=
  decide (wrapI64 (s.priorityAt i - s.priorityAt j) > 0)

/-- `Swap(i, j)`. -/
def swap (s : Sstack α) (i j : Nat) : Sstack α :=
  let ib := i / blockSize
  let io := i % blockSize
  let jb := j / blockSize
  let jo := j % blockSize
  let a := cellAt s.blocks jb jo
  let b := cellAt s.blocks ib io
  let s := if s.setIndex then { s with reports := s.reports ++ [(a, (i : Int)), (b, (j : Int))] }
    else s
  { s with blocks := setCell (setCell s.blocks ib io a) jb jo b }

/-- The first half of `Push`: a new block when the stack is full, the next block when the active
one is. -/
def nextSlot (s : Sstack α) : Sstack α :=
  if s.size = s.capacity then
    { s with active := s.blocks.length, blocks := s.blocks ++ [List.replicate blockSize none],
             capacity := s.capacity + blockSize, offset := 0 }
  else if s.offset = blockSize then { s with active := s.size / blockSize, offset := 0 }
  else s

/-- `Push(data)`, with `data` the pointer `p`. -/
def push (s : Sstack α) (p : Nat) : Sstack α :=
  let s := s.nextSlot
  let s := if s.setIndex then { s with reports := s.reports ++ [(some p, (s.size : Int))] } else s
  { s with blocks := setCell s.blocks s.active s.offset (some p), offset := s.offset + 1,
           size := s.size + 1 }

/-- The first half of `Pop`: `size` and `offset` one back, and the block before when the offset
goes below zero. -/
def lastSlot (s : Sstack α) : Sstack α :=
  if s.offset = 0 then
    { s with size := s.size - 1, offset := blockSize - 1, active := (s.size - 1) / blockSize }
  else { s with size := s.size - 1, offset := s.offset - 1 }

/-- `Pop()`: the pointer in the last cell, which is cleared. -/
def pop (s : Sstack α) : Option Nat × Sstack α :=
  let s := s.lastSlot
  let res := cellAt s.blocks s.active s.offset
  let s := { s with blocks := setCell s.blocks s.active s.offset none }
  (res, if s.setIndex then { s with reports := s.reports ++ [(res, -1)] } else s)

/-- `Reset()`: `*s = *newSstack(s.setIndex)`. -/
def reset (s : Sstack α) : Sstack α := newSstack s.setIndex s.mem s.reports

/-- The stack as a flat array: its first `size` cells. -/
def flat (s : Sstack α) : List (Option Nat) := (List.range s.size).map s.cell

/-- Where `(active, offset)` is: at position `size`, in blocks of full length. -/
structure Inv (s : Sstack α) : Prop where
  blocks_len : ∀ blk ∈ s.blocks, blk.length = blockSize
  capacity_eq : s.capacity = blockSize * s.blocks.length
  active_lt : s.active < s.blocks.length
  size_eq : s.size = blockSize * s.active + s.offset
  offset_le : s.offset ≤ blockSize

end Sstack

/-! ## Cells -/

theorem cellAt_setCell {blocks : List (List (Option Nat))} {b o : Nat} (x : Option Nat)
    (b' o' : Nat) (hb : b < blocks.length) (ho : o < blocks[b].length) :
    cellAt (setCell blocks b o x) b' o' = if b' = b ∧ o' = o then x else cellAt blocks b' o' := by
  unfold cellAt setCell
  rw [List.getElem?_modify]
  by_cases hbb : b = b'
  · subst hbb
    rw [List.getElem?_eq_getElem hb]
    by_cases hoo : o' = o
    · subst hoo
      simp [ho]
    · simp [Ne.symm hoo, hoo]
  · simp [hbb, Ne.symm hbb]

theorem setCell_blocks_len {blocks : List (List (Option Nat))} (b o : Nat) (x : Option Nat)
    (hlen : ∀ blk ∈ blocks, blk.length = blockSize) :
    ∀ blk ∈ setCell blocks b o x, blk.length = blockSize := by
  intro blk hblk
  obtain ⟨k, hk, rfl⟩ := List.mem_iff_getElem.mp hblk
  unfold setCell at hk ⊢
  rw [List.getElem_modify]
  have hk' : k < blocks.length := by rwa [List.length_modify] at hk
  split
  · rw [List.length_set]
    exact hlen _ (List.getElem_mem hk')
  · exact hlen _ (List.getElem_mem hk')

@[simp] theorem setCell_length (blocks : List (List (Option Nat))) (b o : Nat) (x : Option Nat) :
    (setCell blocks b o x).length = blocks.length :=
  List.length_modify _ _ _

/-- Writing the cell of `(b, o)` writes position `blockSize * b + o` and no other. -/
theorem cellAt_setCell_pos {blocks : List (List (Option Nat))} {b o : Nat} (x : Option Nat)
    (k : Nat) (hlen : ∀ blk ∈ blocks, blk.length = blockSize) (hb : b < blocks.length)
    (ho : o < blockSize) :
    cellAt (setCell blocks b o x) (k / blockSize) (k % blockSize) =
      if k = blockSize * b + o then x else cellAt blocks (k / blockSize) (k % blockSize) := by
  have hob : o < blocks[b].length := by
    rw [hlen _ (List.getElem_mem hb)]
    exact ho
  rw [cellAt_setCell x _ _ hb hob]
  by_cases hk : k = blockSize * b + o
  · have hslot : k / blockSize = b ∧ k % blockSize = o := by
      unfold blockSize at *
      omega
    rw [if_pos hslot, if_pos hk]
  · have hslot : ¬ (k / blockSize = b ∧ k % blockSize = o) := by
      unfold blockSize at *
      omega
    rw [if_neg hslot, if_neg hk]

/-- Cells past the blocks are `nil`. -/
theorem cellAt_append_of_lt {blocks : List (List (Option Nat))} (extra : List (Option Nat))
    {b : Nat} (o : Nat) (hb : b < blocks.length) :
    cellAt (blocks ++ [extra]) b o = cellAt blocks b o := by
  unfold cellAt
  rw [List.getElem?_append_left hb]

/-! ## Push -/

namespace Sstack

/-- `t` is `s` ready to write position `s.size`: the same cells below it, and the slot
`(active, offset)` in range and at `s.size`. -/
structure SlotReady (s t : Sstack α) : Prop where
  cells : ∀ k, k < s.size → t.cell k = s.cell k
  blocks_len : ∀ blk ∈ t.blocks, blk.length = blockSize
  capacity_eq : t.capacity = blockSize * t.blocks.length
  active_lt : t.active < t.blocks.length
  offset_lt : t.offset < blockSize
  slot : s.size = blockSize * t.active + t.offset
  size_eq : t.size = s.size

@[simp] theorem nextSlot_setIndex (s : Sstack α) : s.nextSlot.setIndex = s.setIndex := by
  unfold nextSlot
  split
  · rfl
  · split <;> rfl

@[simp] theorem nextSlot_mem (s : Sstack α) : s.nextSlot.mem = s.mem := by
  unfold nextSlot
  split
  · rfl
  · split <;> rfl

@[simp] theorem nextSlot_reports (s : Sstack α) : s.nextSlot.reports = s.reports := by
  unfold nextSlot
  split
  · rfl
  · split <;> rfl

/-- The three cases of `Push`'s first half each leave a slot at position `size`. -/
theorem nextSlot_ready {s : Sstack α} (hinv : s.Inv) : SlotReady s s.nextSlot := by
  have hb := hinv.active_lt
  have hsz := hinv.size_eq
  have hoff := hinv.offset_le
  have hcap := hinv.capacity_eq
  unfold nextSlot
  by_cases hfull : s.size = s.capacity
  -- full: a new block after the others
  · rw [if_pos hfull]
    have hlast : s.active + 1 = s.blocks.length := by
      unfold blockSize at *
      rw [hcap] at hfull
      have : s.active + 1 ≤ s.blocks.length := hb
      nlinarith
    constructor
    · intro k hk
      show cellAt (s.blocks ++ _) _ _ = cellAt s.blocks _ _
      apply cellAt_append_of_lt
      unfold blockSize at *
      rw [hcap] at hfull
      omega
    · intro blk hblk
      rcases List.mem_append.mp hblk with h | h
      · exact hinv.blocks_len blk h
      · rw [List.mem_singleton.mp h, List.length_replicate]
    · simp only [List.length_append, List.length_singleton]
      rw [hcap]
      ring
    · simp
    · show 0 < blockSize
      unfold blockSize
      omega
    · show s.size = blockSize * s.blocks.length + 0
      rw [hfull, hcap]
      ring
    · rfl
  · rw [if_neg hfull]
    have hlt : s.size < s.capacity := by
      rw [hcap] at hfull ⊢
      rw [hsz] at hfull ⊢
      unfold blockSize at *
      omega
    by_cases hend : s.offset = blockSize
    -- the active block is full: the next one
    · rw [if_pos hend]
      refine ⟨fun _ _ => rfl, hinv.blocks_len, hcap, ?_, ?_, ?_, rfl⟩
      · show s.size / blockSize < s.blocks.length
        rw [hcap] at hlt
        unfold blockSize at *
        omega
      · show 0 < blockSize
        unfold blockSize
        omega
      · show s.size = blockSize * (s.size / blockSize) + 0
        rw [hsz, hend]
        unfold blockSize
        omega
    · rw [if_neg hend]
      exact ⟨fun _ _ => rfl, hinv.blocks_len, hcap, hb, by omega, hsz, rfl⟩

/-- `Push` writes the pointer at position `size` and keeps the other cells. -/
theorem push_spec {s : Sstack α} (hinv : s.Inv) (p : Nat) :
    (s.push p).Inv ∧ (s.push p).size = s.size + 1 ∧
      (∀ k, k < s.size → (s.push p).cell k = s.cell k) ∧ (s.push p).cell s.size = some p := by
  have hr := nextSlot_ready hinv
  have hcell : ∀ k, (s.push p).cell k =
      if k = blockSize * s.nextSlot.active + s.nextSlot.offset then some p else s.nextSlot.cell k := by
    intro k
    unfold push
    dsimp only
    split <;>
      exact cellAt_setCell_pos (some p) k hr.blocks_len hr.active_lt hr.offset_lt
  have hlen : (s.push p).blocks.length = s.nextSlot.blocks.length := by
    unfold push
    dsimp only
    split <;> exact setCell_length _ _ _ _
  have hfields : (s.push p).size = s.nextSlot.size + 1 ∧
      (s.push p).offset = s.nextSlot.offset + 1 ∧ (s.push p).active = s.nextSlot.active ∧
      (s.push p).capacity = s.nextSlot.capacity := by
    unfold push
    dsimp only
    split <;> exact ⟨rfl, rfl, rfl, rfl⟩
  obtain ⟨hsize, hoff, hact, hcapa⟩ := hfields
  refine ⟨?_, by rw [hsize, hr.size_eq], ?_, ?_⟩
  · constructor
    · intro blk hblk
      unfold push at hblk
      dsimp only at hblk
      split at hblk <;> exact setCell_blocks_len _ _ _ hr.blocks_len blk hblk
    · rw [hcapa, hlen, hr.capacity_eq]
    · rw [hact, hlen]
      exact hr.active_lt
    · rw [hsize, hoff, hact, hr.size_eq, hr.slot]
      omega
    · rw [hoff]
      exact hr.offset_lt
  · intro k hk
    rw [hcell k, if_neg (by rw [← hr.slot]; omega)]
    exact hr.cells k hk
  · rw [hcell, if_pos hr.slot]

@[simp] theorem push_setIndex (s : Sstack α) (p : Nat) : (s.push p).setIndex = s.setIndex := by
  unfold push
  dsimp only
  split <;> exact nextSlot_setIndex s

@[simp] theorem push_mem (s : Sstack α) (p : Nat) : (s.push p).mem = s.mem := by
  unfold push
  dsimp only
  split <;> exact nextSlot_mem s

theorem push_reports (s : Sstack α) (p : Nat) :
    (s.push p).reports =
      if s.setIndex then s.reports ++ [(some p, (s.size : Int))] else s.reports := by
  have hsize : s.nextSlot.size = s.size := by
    unfold nextSlot
    split
    · rfl
    · split <;> rfl
  unfold push
  dsimp only
  by_cases hset : s.setIndex = true
  · rw [if_pos (by rw [nextSlot_setIndex]; exact hset), if_pos hset, nextSlot_reports, hsize]
  · rw [if_neg (by rw [nextSlot_setIndex]; exact hset), if_neg hset, nextSlot_reports]

/-! ## Pop -/

@[simp] theorem lastSlot_blocks (s : Sstack α) : s.lastSlot.blocks = s.blocks := by
  unfold lastSlot
  split <;> rfl

@[simp] theorem lastSlot_setIndex (s : Sstack α) : s.lastSlot.setIndex = s.setIndex := by
  unfold lastSlot
  split <;> rfl

@[simp] theorem lastSlot_mem (s : Sstack α) : s.lastSlot.mem = s.mem := by
  unfold lastSlot
  split <;> rfl

@[simp] theorem lastSlot_reports (s : Sstack α) : s.lastSlot.reports = s.reports := by
  unfold lastSlot
  split <;> rfl

/-- `Pop`'s first half steps back to the slot of position `size - 1`. -/
theorem lastSlot_spec {s : Sstack α} (hinv : s.Inv) (hpos : 0 < s.size) :
    s.lastSlot.size = s.size - 1 ∧ s.lastSlot.capacity = s.capacity ∧
      s.lastSlot.active < s.blocks.length ∧ s.lastSlot.offset < blockSize ∧
      s.size - 1 = blockSize * s.lastSlot.active + s.lastSlot.offset := by
  have hb := hinv.active_lt
  have hsz := hinv.size_eq
  have hoff := hinv.offset_le
  unfold lastSlot
  by_cases h0 : s.offset = 0
  -- the offset goes below zero: the last cell of the block before
  · rw [if_pos h0]
    refine ⟨rfl, rfl, ?_, ?_, ?_⟩
    · show (s.size - 1) / blockSize < s.blocks.length
      unfold blockSize at *
      omega
    · show blockSize - 1 < blockSize
      unfold blockSize
      omega
    · show s.size - 1 = blockSize * ((s.size - 1) / blockSize) + (blockSize - 1)
      rw [hsz, h0]
      unfold blockSize at *
      omega
  · rw [if_neg h0]
    refine ⟨rfl, rfl, hb, ?_, ?_⟩
    · show s.offset - 1 < blockSize
      omega
    · show s.size - 1 = blockSize * s.active + (s.offset - 1)
      omega

@[simp] theorem pop_setIndex (s : Sstack α) : s.pop.2.setIndex = s.setIndex := by
  unfold pop
  dsimp only
  split <;> simp

@[simp] theorem pop_mem (s : Sstack α) : s.pop.2.mem = s.mem := by
  unfold pop
  dsimp only
  split <;> simp

/-- `Pop` returns the last cell and clears it. -/
theorem pop_spec {s : Sstack α} (hinv : s.Inv) (hpos : 0 < s.size) :
    s.pop.1 = s.cell (s.size - 1) ∧ s.pop.2.Inv ∧ s.pop.2.size = s.size - 1 ∧
      ∀ k, k < s.size - 1 → s.pop.2.cell k = s.cell k := by
  obtain ⟨hsize, hcapa, hact, hoff, hslot⟩ := lastSlot_spec hinv hpos
  have hres : s.pop.1 = s.cell (s.size - 1) := by
    show cellAt s.lastSlot.blocks s.lastSlot.active s.lastSlot.offset = _
    unfold cell
    have hdiv : (s.size - 1) / blockSize = s.lastSlot.active ∧
        (s.size - 1) % blockSize = s.lastSlot.offset := by
      rw [hslot]
      unfold blockSize at *
      omega
    rw [lastSlot_blocks, hdiv.1, hdiv.2]
  have hcell : ∀ k, s.pop.2.cell k =
      if k = blockSize * s.lastSlot.active + s.lastSlot.offset then none else s.cell k := by
    intro k
    unfold pop
    dsimp only
    split <;>
      (unfold cell
       dsimp only
       rw [cellAt_setCell_pos none k (by rw [lastSlot_blocks]; exact hinv.blocks_len)
         (by rw [lastSlot_blocks]; exact hact) hoff, lastSlot_blocks])
  have hfields : s.pop.2.size = s.lastSlot.size ∧ s.pop.2.offset = s.lastSlot.offset ∧
      s.pop.2.active = s.lastSlot.active ∧ s.pop.2.capacity = s.lastSlot.capacity ∧
      s.pop.2.blocks = setCell s.blocks s.lastSlot.active s.lastSlot.offset none := by
    unfold pop
    dsimp only
    split <;> exact ⟨rfl, rfl, rfl, rfl, by rw [lastSlot_blocks]⟩
  obtain ⟨hsize', hoff', hact', hcapa', hblocks'⟩ := hfields
  refine ⟨hres, ?_, by rw [hsize', hsize], ?_⟩
  · constructor
    · rw [hblocks']
      exact setCell_blocks_len _ _ _ hinv.blocks_len
    · rw [hcapa', hcapa, hblocks', setCell_length]
      exact hinv.capacity_eq
    · rw [hact', hblocks', setCell_length]
      exact hact
    · rw [hsize', hoff', hact', hsize, hslot]
    · rw [hoff']
      omega
  · intro k hk
    rw [hcell k, if_neg (by rw [← hslot]; omega)]

theorem pop_reports (s : Sstack α) :
    s.pop.2.reports = if s.setIndex then s.reports ++ [(s.pop.1, -1)] else s.reports := by
  unfold pop
  dsimp only
  by_cases hset : s.setIndex = true
  · rw [if_pos (by rw [lastSlot_setIndex]; exact hset), if_pos hset, lastSlot_reports]
  · rw [if_neg (by rw [lastSlot_setIndex]; exact hset), if_neg hset, lastSlot_reports]

/-! ## Swap -/

@[simp] theorem swap_size (s : Sstack α) (i j : Nat) : (s.swap i j).size = s.size := by
  unfold swap
  dsimp only
  split <;> rfl

@[simp] theorem swap_setIndex (s : Sstack α) (i j : Nat) :
    (s.swap i j).setIndex = s.setIndex := by
  unfold swap
  dsimp only
  split <;> rfl

@[simp] theorem swap_mem (s : Sstack α) (i j : Nat) : (s.swap i j).mem = s.mem := by
  unfold swap
  dsimp only
  split <;> rfl

theorem swap_reports (s : Sstack α) (i j : Nat) :
    (s.swap i j).reports =
      if s.setIndex then s.reports ++ [(s.cell j, (i : Int)), (s.cell i, (j : Int))]
      else s.reports := by
  unfold swap
  dsimp only
  split <;> rfl

/-- `Swap` exchanges the cells of two positions in the blocks, across blocks too. -/
theorem swap_spec {s : Sstack α} (hinv : s.Inv) {i j : Nat} (hi : i < s.capacity)
    (hj : j < s.capacity) :
    (s.swap i j).Inv ∧
      ∀ k, (s.swap i j).cell k = if k = i then s.cell j else if k = j then s.cell i else s.cell k := by
  have hcap := hinv.capacity_eq
  have hib : i / blockSize < s.blocks.length := by
    rw [hcap] at hi
    unfold blockSize at *
    omega
  have hjb : j / blockSize < s.blocks.length := by
    rw [hcap] at hj
    unfold blockSize at *
    omega
  have hmod : ∀ n, n % blockSize < blockSize := fun n => Nat.mod_lt _ (by unfold blockSize; omega)
  have hpos : ∀ n, n = blockSize * (n / blockSize) + n % blockSize := fun n =>
    (Nat.div_add_mod n blockSize).symm
  have hblocks : (s.swap i j).blocks = setCell (setCell s.blocks (i / blockSize) (i % blockSize)
      (s.cell j)) (j / blockSize) (j % blockSize) (s.cell i) := by
    unfold swap
    dsimp only
    split <;> rfl
  have hfields : (s.swap i j).size = s.size ∧ (s.swap i j).offset = s.offset ∧
      (s.swap i j).active = s.active ∧ (s.swap i j).capacity = s.capacity := by
    unfold swap
    dsimp only
    split <;> exact ⟨rfl, rfl, rfl, rfl⟩
  obtain ⟨hsize, hoff, hact, hcapa⟩ := hfields
  have hlen1 := setCell_blocks_len (i / blockSize) (i % blockSize) (s.cell j) hinv.blocks_len
  constructor
  · constructor
    · rw [hblocks]
      exact setCell_blocks_len _ _ _ hlen1
    · rw [hcapa, hblocks, setCell_length, setCell_length]
      exact hcap
    · rw [hact, hblocks, setCell_length, setCell_length]
      exact hinv.active_lt
    · rw [hsize, hact, hoff]
      exact hinv.size_eq
    · rw [hoff]
      exact hinv.offset_le
  · intro k
    show cellAt (s.swap i j).blocks (k / blockSize) (k % blockSize) = _
    rw [hblocks, cellAt_setCell_pos _ k hlen1 (by rw [setCell_length]; exact hjb) (hmod j),
      cellAt_setCell_pos _ k hinv.blocks_len hib (hmod i), ← hpos j, ← hpos i]
    -- the second write, to `j`, is the one that shows when `i = j`
    by_cases hkj : k = j
    · by_cases hki : k = i
      · rw [if_pos hkj, if_pos hki, ← hki, ← hkj]
      · rw [if_pos hkj, if_neg hki, if_pos hkj]
    · rw [if_neg hkj]
      by_cases hki : k = i
      · rw [if_pos hki, if_pos hki]
      · rw [if_neg hki, if_neg hki, if_neg hkj]
        rfl

/-! ## The flat array -/

theorem flat_length (s : Sstack α) : s.flat.length = s.size := by
  simp [flat]

theorem flat_getElem? (s : Sstack α) (k : Nat) :
    s.flat[k]? = if k < s.size then some (s.cell k) else none := by
  unfold flat
  rw [List.getElem?_map]
  by_cases hk : k < s.size
  · rw [List.getElem?_range hk, if_pos hk]
    rfl
  · rw [if_neg hk, List.getElem?_eq_none (by simp only [List.length_range]; omega)]
    rfl

/-- `Push` appends to the flat array. -/
theorem flat_push {s : Sstack α} (hinv : s.Inv) (p : Nat) :
    (s.push p).flat = s.flat ++ [some p] := by
  obtain ⟨-, hsize, hcells, hlast⟩ := push_spec hinv p
  unfold flat
  rw [hsize, List.range_succ, List.map_append, List.map_singleton, hlast]
  congr 1
  exact List.map_congr_left fun k hk => hcells k (List.mem_range.mp hk)

/-- `Pop` takes the last element off the flat array. -/
theorem flat_pop {s : Sstack α} (hinv : s.Inv) (hpos : 0 < s.size) :
    s.pop.1 = (s.flat.getLast?).join ∧ s.pop.2.flat = s.flat.dropLast := by
  obtain ⟨hres, -, hsize, hcells⟩ := pop_spec hinv hpos
  constructor
  · rw [hres, List.getLast?_eq_getElem?, flat_length, flat_getElem?, if_pos (by omega)]
    rfl
  · rw [List.dropLast_eq_take, flat_length]
    unfold flat
    rw [← List.map_take, List.take_range, Nat.min_eq_left (Nat.sub_le _ _), hsize]
    exact List.map_congr_left fun k hk => hcells k (List.mem_range.mp hk)

theorem size_le_capacity {s : Sstack α} (hinv : s.Inv) : s.size ≤ s.capacity := by
  have hb := hinv.active_lt
  rw [hinv.capacity_eq, hinv.size_eq]
  have hoff := hinv.offset_le
  calc blockSize * s.active + s.offset ≤ blockSize * s.active + blockSize := by omega
    _ = blockSize * (s.active + 1) := by ring
    _ ≤ blockSize * s.blocks.length := Nat.mul_le_mul_left _ hb

/-- `Swap` swaps in the flat array. -/
theorem flat_swap {s : Sstack α} (hinv : s.Inv) {i j : Nat} (hi : i < s.size) (hj : j < s.size) :
    (s.swap i j).flat = listSwap s.flat i j := by
  have hcap := size_le_capacity hinv
  obtain ⟨-, hcell⟩ := swap_spec hinv (Nat.lt_of_lt_of_le hi hcap) (Nat.lt_of_lt_of_le hj hcap)
  apply List.ext_getElem?
  intro k
  rw [flat_getElem?, swap_size, hcell k,
    listSwap_getElem? k (by rw [flat_length]; exact hi) (by rw [flat_length]; exact hj),
    flat_getElem?, flat_getElem?, flat_getElem?, if_pos hi, if_pos hj]
  by_cases hki : k = i
  · rw [if_pos hki, if_pos hki, if_pos (hki ▸ hi)]
  · rw [if_neg hki, if_neg hki]
    by_cases hkj : k = j
    · rw [if_pos hkj, if_pos hkj, if_pos (hkj ▸ hj)]
    · rw [if_neg hkj, if_neg hkj]

end Sstack

/-! ## Reports of the callback -/

/-- The index of the last call of the callback for the pointer `p`. -/
def lastReport (reports : List (Option Nat × Int)) (p : Nat) : Option Int :=
  (reports.reverse.find? fun r => decide (r.1 = some p)).map Prod.snd

theorem lastReport_append_of_ne {reports new : List (Option Nat × Int)} {p : Nat}
    (h : ∀ r ∈ new, r.1 ≠ some p) : lastReport (reports ++ new) p = lastReport reports p := by
  unfold lastReport
  rw [List.reverse_append, List.find?_append,
    List.find?_eq_none.mpr (fun r hr => by simpa using h r (List.mem_reverse.mp hr))]
  rfl

theorem lastReport_append_self (reports : List (Option Nat × Int)) (p : Nat) (i : Int) :
    lastReport (reports ++ [(some p, i)]) p = some i := by
  simp [lastReport]

theorem lastReport_append_pair (reports : List (Option Nat × Int)) (a b : Option Nat)
    (i j : Int) (p : Nat) :
    lastReport (reports ++ [(a, i), (b, j)]) p =
      if b = some p then some j else if a = some p then some i else lastReport reports p := by
  unfold lastReport
  rw [List.reverse_append]
  by_cases hb : b = some p
  · simp [hb]
  · by_cases ha : a = some p
    · simp [ha, hb]
    · simp [ha, hb]

end GoMetadium.Common
