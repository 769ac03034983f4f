import Mathlib

set_option autoImplicit false

/-! # Doubly linked lists on a heap of nodes

A doubly linked list whose nodes live on a heap addressed by position: each node holds a value
and the positions of its neighbours, and the list knows the positions of its ends (`DLinked`).
`Links d order` says that following the links of `d` from its head visits the positions
`order`: every node's `next` is the position after it in `order`, its `prev` the one before.

The two operations of a list that keeps its ends, appending a node at the tail (`append`) and
unlinking a node wherever it stands (`delete`), keep the representation: `Links.append` and
`Links.delete`, with the order `order ++ [i]` and `order.eraseIdx k`. Changing the value of a
node (`modifyVal`) changes no link (`Links.modifyVal`), and no link operation changes a value
(`valOf_append`, `valOf_delete`).
-/

namespace DLinked

variable {α : Type}

/-- A node: its value and the positions of its neighbours. -/
structure Node (α : Type) where
  val : α
  prev : Option Nat
  next : Option Nat

end DLinked

/-- A doubly linked list: its nodes addressed by position, and the positions of its ends. -/
structure DLinked (α : Type) where
  nodes : List (DLinked.Node α)
  head : Option Nat
  tail : Option Nat

namespace DLinked

variable {α : Type}

/-! ## Links of the heap -/

/-- The position after node `i`. -/
def nextOf (nodes : List (Node α)) (i : Nat) : Option Nat := nodes[i]?.bind Node.next

/-- The position before node `i`. -/
def prevOf (nodes : List (Node α)) (i : Nat) : Option Nat := nodes[i]?.bind Node.prev

/-- The value of node `i`. -/
def valOf (nodes : List (Node α)) (i : Nat) : Option α := nodes[i]?.map Node.val

/-- Point the `next` link of node `p`, if there is one, at `q`. -/
def setNext (nodes : List (Node α)) : Option Nat → Option Nat → List (Node α)
  | none, _ => nodes
  | some p, q => nodes.modify p fun n => { n with next := q }

/-- Point the `prev` link of node `p`, if there is one, at `q`. -/
def setPrev (nodes : List (Node α)) : Option Nat → Option Nat → List (Node α)
  | none, _ => nodes
  | some p, q => nodes.modify p fun n => { n with prev := q }

/-- Set both links of node `i`. -/
def setLinks (nodes : List (Node α)) (i : Nat) (p q : Option Nat) : List (Node α) :=
  nodes.modify i fun n => { n with prev := p, next := q }

@[simp] theorem length_setNext (nodes : List (Node α)) (p q : Option Nat) :
    (setNext nodes p q).length = nodes.length := by
  cases p <;> simp [setNext]

@[simp] theorem length_setPrev (nodes : List (Node α)) (p q : Option Nat) :
    (setPrev nodes p q).length = nodes.length := by
  cases p <;> simp [setPrev]

@[simp] theorem length_setLinks (nodes : List (Node α)) (i : Nat) (p q : Option Nat) :
    (setLinks nodes i p q).length = nodes.length := by
  simp [setLinks]

theorem nextOf_setNext {nodes : List (Node α)} {j : Nat} (hj : j < nodes.length)
    (p q : Option Nat) : nextOf (setNext nodes p q) j = if p = some j then q else nextOf nodes j := by
  cases p with
  | none => simp [setNext]
  | some p =>
    by_cases hpj : p = j
    · subst hpj; simp [setNext, nextOf, hj]
    · simp [setNext, nextOf, hpj]

@[simp] theorem prevOf_setNext (nodes : List (Node α)) (p q : Option Nat) (j : Nat) :
    prevOf (setNext nodes p q) j = prevOf nodes j := by
  cases p with
  | none => rfl
  | some p =>
    simp only [setNext, prevOf, List.getElem?_modify]
    cases nodes[j]? <;> simp only [Option.map_eq_map, Option.map_none, Option.map_some,
      Option.bind_none, Option.bind_some]
    split <;> rfl

@[simp] theorem nextOf_setPrev (nodes : List (Node α)) (p q : Option Nat) (j : Nat) :
    nextOf (setPrev nodes p q) j = nextOf nodes j := by
  cases p with
  | none => rfl
  | some p =>
    simp only [setPrev, nextOf, List.getElem?_modify]
    cases nodes[j]? <;> simp only [Option.map_eq_map, Option.map_none, Option.map_some,
      Option.bind_none, Option.bind_some]
    split <;> rfl

theorem prevOf_setPrev {nodes : List (Node α)} {j : Nat} (hj : j < nodes.length)
    (p q : Option Nat) : prevOf (setPrev nodes p q) j = if p = some j then q else prevOf nodes j := by
  cases p with
  | none => simp [setPrev]
  | some p =>
    by_cases hpj : p = j
    · subst hpj; simp [setPrev, prevOf, hj]
    · simp [setPrev, prevOf, hpj]

theorem nextOf_setLinks {nodes : List (Node α)} {j : Nat} (hj : j < nodes.length) (i : Nat)
    (p q : Option Nat) : nextOf (setLinks nodes i p q) j = if i = j then q else nextOf nodes j := by
  by_cases hij : i = j
  · subst hij; simp [setLinks, nextOf, hj]
  · simp [setLinks, nextOf, hij]

theorem prevOf_setLinks {nodes : List (Node α)} {j : Nat} (hj : j < nodes.length) (i : Nat)
    (p q : Option Nat) : prevOf (setLinks nodes i p q) j = if i = j then p else prevOf nodes j := by
  by_cases hij : i = j
  · subst hij; simp [setLinks, prevOf, hj]
  · simp [setLinks, prevOf, hij]

@[simp] theorem valOf_setNext (nodes : List (Node α)) (p q : Option Nat) (j : Nat) :
    valOf (setNext nodes p q) j = valOf nodes j := by
  cases p with
  | none => rfl
  | some p =>
    simp only [setNext, valOf, List.getElem?_modify]
    cases nodes[j]? <;> simp only [Option.map_eq_map, Option.map_none, Option.map_some]
    split <;> rfl

@[simp] theorem valOf_setPrev (nodes : List (Node α)) (p q : Option Nat) (j : Nat) :
    valOf (setPrev nodes p q) j = valOf nodes j := by
  cases p with
  | none => rfl
  | some p =>
    simp only [setPrev, valOf, List.getElem?_modify]
    cases nodes[j]? <;> simp only [Option.map_eq_map, Option.map_none, Option.map_some]
    split <;> rfl

@[simp] theorem valOf_setLinks (nodes : List (Node α)) (i : Nat) (p q : Option Nat) (j : Nat) :
    valOf (setLinks nodes i p q) j = valOf nodes j := by
  simp only [setLinks, valOf, List.getElem?_modify]
  cases nodes[j]? <;> simp only [Option.map_eq_map, Option.map_none, Option.map_some]
  split <;> rfl

/-! ## The operations -/

/-- Append node `i` at the tail. The first node becomes head and tail; a later one is linked
after the tail. -/
def append (d : DLinked α) (i : Nat) : DLinked α :=
  match d.head with
  | none => { nodes := setLinks d.nodes i none none, head := some i, tail := some i }
  | some _ =>
    { nodes := setNext (setLinks d.nodes i d.tail none) d.tail (some i),
      head := d.head, tail := some i }

/-- Unlink node `i`: its neighbours are linked to each other, and an end that was `i` moves to
its neighbour. The node keeps its own links. -/
def delete (d : DLinked α) (i : Nat) : DLinked α :=
  match d.nodes[i]? with
  | none => d
  | some l =>
    { nodes := setPrev (setNext d.nodes l.prev l.next) l.next l.prev,
      head := if d.head = some i then l.next else d.head,
      tail := if d.tail = some i then l.prev else d.tail }

/-- Change the value of node `i`. -/
def modifyVal (d : DLinked α) (i : Nat) (f : α → α) : DLinked α :=
  { d with nodes := d.nodes.modify i fun n => { n with val := f n.val } }

/-- Put a node with value `v` and no links at the end of the heap. -/
def alloc (d : DLinked α) (v : α) : DLinked α :=
  { d with nodes := d.nodes ++ [⟨v, none, none⟩] }

@[simp] theorem length_append (d : DLinked α) (i : Nat) :
    (d.append i).nodes.length = d.nodes.length := by
  unfold append; split <;> simp

@[simp] theorem length_delete (d : DLinked α) (i : Nat) :
    (d.delete i).nodes.length = d.nodes.length := by
  unfold delete; split <;> simp

@[simp] theorem length_modifyVal (d : DLinked α) (i : Nat) (f : α → α) :
    (d.modifyVal i f).nodes.length = d.nodes.length := by
  simp [modifyVal]

@[simp] theorem length_alloc (d : DLinked α) (v : α) :
    (d.alloc v).nodes.length = d.nodes.length + 1 := by
  simp [alloc]

@[simp] theorem valOf_append (d : DLinked α) (i j : Nat) :
    valOf (d.append i).nodes j = valOf d.nodes j := by
  unfold append; split <;> simp

@[simp] theorem valOf_delete (d : DLinked α) (i j : Nat) :
    valOf (d.delete i).nodes j = valOf d.nodes j := by
  unfold delete; split <;> simp

theorem valOf_modifyVal (d : DLinked α) (i : Nat) (f : α → α) (j : Nat) :
    valOf (d.modifyVal i f).nodes j = if i = j then (valOf d.nodes j).map f else valOf d.nodes j := by
  by_cases hij : i = j
  · subst hij
    simp only [modifyVal, valOf, List.getElem?_modify]
    cases d.nodes[i]? <;> rfl
  · simp [modifyVal, valOf, hij]

@[simp] theorem nextOf_modifyVal (d : DLinked α) (i : Nat) (f : α → α) (j : Nat) :
    nextOf (d.modifyVal i f).nodes j = nextOf d.nodes j := by
  simp only [modifyVal, nextOf, List.getElem?_modify]
  cases d.nodes[j]? <;> simp only [Option.map_eq_map, Option.map_none, Option.map_some,
    Option.bind_none, Option.bind_some]
  split <;> rfl

@[simp] theorem prevOf_modifyVal (d : DLinked α) (i : Nat) (f : α → α) (j : Nat) :
    prevOf (d.modifyVal i f).nodes j = prevOf d.nodes j := by
  simp only [modifyVal, prevOf, List.getElem?_modify]
  cases d.nodes[j]? <;> simp only [Option.map_eq_map, Option.map_none, Option.map_some,
    Option.bind_none, Option.bind_some]
  split <;> rfl

theorem valOf_alloc (d : DLinked α) (v : α) (j : Nat) :
    valOf (d.alloc v).nodes j = if j = d.nodes.length then some v else valOf d.nodes j := by
  simp only [alloc, valOf, List.getElem?_append]
  by_cases h₁ : j < d.nodes.length
  · simp [h₁, show j ≠ d.nodes.length by omega]
  · by_cases h₂ : j = d.nodes.length
    · subst h₂; simp
    · simp [h₁, h₂, show j - d.nodes.length ≠ 0 by omega]

/-! ## The representation -/

/-- Following the links of `d` from its head visits the positions `order`. -/
structure Links (d : DLinked α) (order : List Nat) : Prop where
  nodup : order.Nodup
  lt_length : ∀ i ∈ order, i < d.nodes.length
  head_eq : d.head = order[0]?
  tail_eq : d.tail = order[order.length - 1]?
  next_eq : ∀ k i, order[k]? = some i → nextOf d.nodes i = order[k + 1]?
  prev_eq : ∀ k i, order[k]? = some i → prevOf d.nodes i = if k = 0 then none else order[k - 1]?

/-- A position of a list without repeats is fixed by its element. -/
theorem idx_eq_of_nodup {order : List Nat} (hnd : order.Nodup) {a b i : Nat}
    (ha : order[a]? = some i) (hb : order[b]? = some i) : a = b := by
  by_contra hab
  have hlt : a < order.length ∧ b < order.length :=
    ⟨(List.getElem?_eq_some_iff.mp ha).1, (List.getElem?_eq_some_iff.mp hb).1⟩
  rcases Nat.lt_or_gt_of_ne hab with h | h
  · exact List.nodup_iff_getElem?_ne_getElem?.mp hnd a b h hlt.2 (ha.trans hb.symm)
  · exact List.nodup_iff_getElem?_ne_getElem?.mp hnd b a h hlt.1 (hb.trans ha.symm)

theorem Links.empty (nodes : List (Node α)) : Links ⟨nodes, none, none⟩ [] where
  nodup := List.nodup_nil
  lt_length := by simp
  head_eq := rfl
  tail_eq := rfl
  next_eq := by simp
  prev_eq := by simp

theorem Links.eq_nil_of_head {d : DLinked α} {order : List Nat} (h : Links d order)
    (hd : d.head = none) : order = [] := by
  have := h.head_eq
  rw [hd] at this
  exact List.getElem?_eq_none_iff.mp this.symm |> Nat.le_zero.mp |> List.eq_nil_of_length_eq_zero

theorem Links.lt_of_getElem? {d : DLinked α} {order : List Nat} (h : Links d order) {k i : Nat}
    (hk : order[k]? = some i) : i < d.nodes.length :=
  h.lt_length i (List.mem_of_getElem? hk)

/-- **Appending a node that is not linked yet** puts it at the end of the order. -/
theorem Links.append {d : DLinked α} {order : List Nat} (h : Links d order) {i : Nat}
    (hi : i < d.nodes.length) (hnot : i ∉ order) : Links (d.append i) (order ++ [i]) := by
  cases hd : d.head with
  | none =>
    -- the list was empty: the node becomes the whole list
    have ho := h.eq_nil_of_head hd
    subst ho
    simp only [DLinked.append, hd]
    refine ⟨List.nodup_singleton i, by simpa using hi, rfl, rfl, ?_, ?_⟩
    · intro k j hk
      have hk0 : k = 0 := by simpa using (List.getElem?_eq_some_iff.mp hk).1
      subst hk0
      have : j = i := by simpa using hk.symm
      subst this
      simp [nextOf_setLinks hi]
    · intro k j hk
      have hk0 : k = 0 := by simpa using (List.getElem?_eq_some_iff.mp hk).1
      subst hk0
      have : j = i := by simpa using hk.symm
      subst this
      simp [prevOf_setLinks hi]
  | some h₀ =>
    simp only [DLinked.append, hd]
    have hne : order ≠ [] := fun ho => by simp [ho, h.head_eq] at hd
    have hlen : 0 < order.length := List.length_pos_iff.mpr hne
    obtain ⟨t, ht⟩ : ∃ t, d.tail = some t := by
      rw [h.tail_eq]; exact Option.isSome_iff_exists.mp (by simp [hlen])
    have htk : order[order.length - 1]? = some t := h.tail_eq ▸ ht
    have hti : t ≠ i := fun hti => hnot (hti ▸ List.mem_of_getElem? htk)
    have hnd : (order ++ [i]).Nodup := List.nodup_append.mpr ⟨h.nodup, List.nodup_singleton i,
      fun a ha b hb hab => hnot (by simp at hb; exact hb ▸ hab ▸ ha)⟩
    refine ⟨hnd, ?_, ?_, ?_, ?_, ?_⟩
    · intro j hj
      rcases List.mem_append.mp hj with hj | hj
      · simpa using h.lt_length j hj
      · simpa [List.mem_singleton.mp hj] using hi
    · rw [← hd, h.head_eq, List.getElem?_append_left hlen]
    · simp
    · intro k j hk
      rw [List.getElem?_append] at hk
      split_ifs at hk with hkl
      · -- a node already in the list: only the old tail gets a new next
        have hj := h.lt_of_getElem? hk
        have hji : i ≠ j := fun hij => hnot (hij ▸ List.mem_of_getElem? hk)
        rw [nextOf_setNext (by simpa using hj), nextOf_setLinks hj, if_neg hji, ht]
        by_cases hjt : t = j
        · subst hjt
          have hkt : k = order.length - 1 := idx_eq_of_nodup h.nodup hk htk
          rw [if_pos rfl, List.getElem?_append_right (by omega)]
          simp [show k + 1 - order.length = 0 by omega]
        · rw [if_neg (by simpa using hjt), h.next_eq k j hk, List.getElem?_append]
          split_ifs with hk1
          · rfl
          · -- j is not the tail, so it is not the last of the order
            have hk' : k = order.length - 1 := by omega
            rw [hk'] at hk
            exact absurd (Option.some.inj (htk.symm.trans hk)) hjt
      · -- the new node
        have hkl' : k = order.length := by
          have := (List.getElem?_eq_some_iff.mp hk).1; simp at this; omega
        subst hkl'
        have : j = i := by simpa using hk.symm
        subst this
        rw [nextOf_setNext (by simpa using hi), if_neg (by rw [ht]; simpa using hti),
          nextOf_setLinks hi, if_pos rfl]
        simp
    · intro k j hk
      rw [List.getElem?_append] at hk
      split_ifs at hk with hkl
      · have hj := h.lt_of_getElem? hk
        have hji : i ≠ j := fun hij => hnot (hij ▸ List.mem_of_getElem? hk)
        rw [prevOf_setNext, prevOf_setLinks hj, if_neg hji, h.prev_eq k j hk]
        split_ifs with hk0
        · rfl
        · rw [List.getElem?_append_left (by omega)]
      · have hkl' : k = order.length := by
          have := (List.getElem?_eq_some_iff.mp hk).1; simp at this; omega
        subst hkl'
        have : j = i := by simpa using hk.symm
        subst this
        rw [prevOf_setNext, prevOf_setLinks hi, if_pos rfl, if_neg (by omega),
          List.getElem?_append_left (by omega), h.tail_eq]

/-- The order has at most as many positions as the heap has nodes. -/
theorem Links.length_le {d : DLinked α} {order : List Nat} (h : Links d order) :
    order.length ≤ d.nodes.length := by
  have hsub : order.Subperm (List.range d.nodes.length) :=
    h.nodup.subperm fun i hi => List.mem_range.mpr (h.lt_length i hi)
  simpa using hsub.length_le

/-! ## Unlinking a node

The node `i` stands at position `k` of the order and has links `l`; its neighbours are the
positions `k - 1` and `k + 1`, and after the unlinking every position from `k` on moves down
by one (`List.getElem?_eraseIdx`). -/

section Delete

variable {d : DLinked α} {order : List Nat} {k i : Nat} {l : Node α}

theorem Links.next_node (h : Links d order) (hk : order[k]? = some i) (hl : d.nodes[i]? = some l) :
    l.next = order[k + 1]? := by
  simpa [nextOf, hl] using h.next_eq k i hk

theorem Links.prev_node (h : Links d order) (hk : order[k]? = some i) (hl : d.nodes[i]? = some l) :
    l.prev = if k = 0 then none else order[k - 1]? := by
  simpa [prevOf, hl] using h.prev_eq k i hk

theorem Links.head_delete (h : Links d order) (hk : order[k]? = some i)
    (hl : d.nodes[i]? = some l) :
    (if d.head = some i then l.next else d.head) = (order.eraseIdx k)[0]? := by
  rw [List.getElem?_eraseIdx, h.head_eq]
  by_cases hk0 : k = 0
  · subst hk0
    rw [if_pos hk, h.next_node hk hl, if_neg (Nat.lt_irrefl 0)]
  · have hne : order[0]? ≠ some i := fun h0 => hk0 (idx_eq_of_nodup h.nodup h0 hk).symm
    rw [if_neg hne, if_pos (Nat.pos_of_ne_zero hk0)]

theorem Links.tail_delete (h : Links d order) (hk : order[k]? = some i)
    (hl : d.nodes[i]? = some l) :
    (if d.tail = some i then l.prev else d.tail) =
      (order.eraseIdx k)[(order.eraseIdx k).length - 1]? := by
  have hklen : k < order.length := (List.getElem?_eq_some_iff.mp hk).1
  rw [List.length_eraseIdx, if_pos hklen, List.getElem?_eraseIdx, h.tail_eq]
  by_cases hkl : k = order.length - 1
  · -- the tail is unlinked: the one before it becomes the tail
    rw [if_pos (hkl ▸ hk), h.prev_node hk hl]
    by_cases hk0 : k = 0
    · rw [if_pos hk0, if_neg (by omega), List.getElem?_eq_none (by omega)]
    · rw [if_neg hk0, if_pos (by omega), show order.length - 1 - 1 = k - 1 by omega]
  · have hne : order[order.length - 1]? ≠ some i := fun ht =>
      hkl (idx_eq_of_nodup h.nodup hk ht)
    rw [if_neg hne, if_neg (by omega), show order.length - 1 - 1 + 1 = order.length - 1 by omega]

theorem Links.next_delete (h : Links d order) (hk : order[k]? = some i)
    (hl : d.nodes[i]? = some l) (k' j : Nat) (hj : (order.eraseIdx k)[k']? = some j) :
    nextOf (setPrev (setNext d.nodes l.prev l.next) l.next l.prev) j =
      (order.eraseIdx k)[k' + 1]? := by
  rw [List.getElem?_eraseIdx] at hj
  rw [nextOf_setPrev, nextOf_setNext (by split_ifs at hj <;> exact h.lt_of_getElem? hj),
    List.getElem?_eraseIdx, h.prev_node hk hl]
  split_ifs at hj with hk'
  · -- j stands before the unlinked node: only its neighbour before gets a new next
    by_cases hp : k ≠ 0 ∧ order[k - 1]? = some j
    · have : k' = k - 1 := idx_eq_of_nodup h.nodup hj hp.2
      rw [if_neg hp.1, if_pos hp.2, if_neg (by omega), h.next_node hk hl,
        show k' + 1 + 1 = k + 1 by omega]
    · have hkk : k' + 1 < k := by
        by_contra hkk
        exact hp ⟨by omega, show k - 1 = k' by omega ▸ hj⟩
      have hc : (if k = 0 then none else order[k - 1]?) ≠ some j := by
        split_ifs with hk0
        · simp
        · exact fun hpj => hp ⟨hk0, hpj⟩
      rw [if_neg hc, if_pos hkk, h.next_eq k' j hj]
  · -- j stands after it: its next moves down with it
    have hp : (if k = 0 then none else order[k - 1]?) ≠ some j := by
      split_ifs with hk0
      · simp
      · intro hpj
        have := idx_eq_of_nodup h.nodup hj hpj
        omega
    rw [if_neg hp, h.next_eq (k' + 1) j hj, if_neg (by omega)]

theorem Links.prev_delete (h : Links d order) (hk : order[k]? = some i)
    (hl : d.nodes[i]? = some l) (k' j : Nat) (hj : (order.eraseIdx k)[k']? = some j) :
    prevOf (setPrev (setNext d.nodes l.prev l.next) l.next l.prev) j =
      if k' = 0 then none else (order.eraseIdx k)[k' - 1]? := by
  rw [List.getElem?_eraseIdx] at hj
  rw [prevOf_setPrev (by simpa using (by split_ifs at hj <;> exact h.lt_of_getElem? hj)),
    prevOf_setNext, h.next_node hk hl, List.getElem?_eraseIdx]
  split_ifs at hj with hk'
  · -- j stands before the unlinked node: its prev is untouched
    have hn : order[k + 1]? ≠ some j := fun hn => by
      have := idx_eq_of_nodup h.nodup hj hn
      omega
    rw [if_neg hn, h.prev_eq k' j hj]
    split_ifs <;> first | rfl | omega
  · by_cases hkk : k' = k
    · -- the node right after the unlinked one takes over its prev
      subst hkk
      rw [if_pos hj, h.prev_node hk hl]
      split_ifs <;> first | rfl | omega
    · have hn : order[k + 1]? ≠ some j := fun hn => by
        have := idx_eq_of_nodup h.nodup hj hn
        omega
      rw [if_neg hn, h.prev_eq (k' + 1) j hj, if_neg (by omega), if_neg (by omega),
        if_neg (by omega), show k' - 1 + 1 = k' by omega, Nat.add_sub_cancel]

/-- **Unlinking a node** removes it from the order. -/
theorem Links.delete (h : Links d order) (hk : order[k]? = some i) :
    Links (d.delete i) (order.eraseIdx k) := by
  have hi := h.lt_of_getElem? hk
  obtain ⟨l, hl⟩ : ∃ l, d.nodes[i]? = some l := ⟨d.nodes[i], List.getElem?_eq_getElem hi⟩
  simp only [DLinked.delete, hl]
  exact {
    nodup := h.nodup.eraseIdx k
    lt_length := fun j hj => by simpa using h.lt_length j (List.mem_of_mem_eraseIdx hj)
    head_eq := h.head_delete hk hl
    tail_eq := h.tail_delete hk hl
    next_eq := h.next_delete hk hl
    prev_eq := h.prev_delete hk hl }

end Delete

/-! ## Values and new nodes -/

theorem Links.modifyVal {d : DLinked α} {order : List Nat} (h : Links d order) (i : Nat)
    (f : α → α) : Links (d.modifyVal i f) order where
  nodup := h.nodup
  lt_length := fun j hj => by simpa using h.lt_length j hj
  head_eq := h.head_eq
  tail_eq := h.tail_eq
  next_eq := fun k j hk => by rw [nextOf_modifyVal]; exact h.next_eq k j hk
  prev_eq := fun k j hk => by rw [prevOf_modifyVal]; exact h.prev_eq k j hk

theorem nextOf_alloc (d : DLinked α) (v : α) {j : Nat} (hj : j < d.nodes.length) :
    nextOf (d.alloc v).nodes j = nextOf d.nodes j := by
  simp [alloc, nextOf, List.getElem?_append_left hj]

theorem prevOf_alloc (d : DLinked α) (v : α) {j : Nat} (hj : j < d.nodes.length) :
    prevOf (d.alloc v).nodes j = prevOf d.nodes j := by
  simp [alloc, prevOf, List.getElem?_append_left hj]

/-- A new node at the end of the heap is not linked yet. -/
theorem Links.alloc {d : DLinked α} {order : List Nat} (h : Links d order) (v : α) :
    Links (d.alloc v) order where
  nodup := h.nodup
  lt_length := fun j hj => by simpa using Nat.lt_succ_of_lt (h.lt_length j hj)
  head_eq := h.head_eq
  tail_eq := h.tail_eq
  next_eq := fun k j hk => by rw [nextOf_alloc d v (h.lt_of_getElem? hk)]; exact h.next_eq k j hk
  prev_eq := fun k j hk => by rw [prevOf_alloc d v (h.lt_of_getElem? hk)]; exact h.prev_eq k j hk

end DLinked
