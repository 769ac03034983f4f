import GoMetadium.Common.LruModel

set_option autoImplicit false

/-! # `LruCache` (`common/lru/lrucache.go`)

The cache keeps three structures: a counter `count`, a doubly linked list `lru`
(`container/list`) whose elements hold the pairs `[key, value]`, most recent first, and a map
`data` from each key to its list element. A `Put` of a known key updates its element and
moves it first; a `Put` of a new key into a full cache first removes the back element and
its key. A `Get` moves the element first unless the cache is `fifo`.

A list element is a pointer in Go; here it is a record with an identity (`handle`) that
`PushFront` allocates fresh, and `data` maps keys to identities. The map is an `AList` (keys
distinct, as in a Go map). The lock is left out: the model runs the calls one after
another, each on the state the one before it left.

The main result is that every run of calls from `NewLruCache(max, fifo)`, `max ≥ 1`, keeps
the three structures in lockstep (`WellFormed`) and has the replies of the abstract cache
(`RecencyMap`).
-/

namespace GoMetadium.Common

/-- A list element (`*list.Element`): its identity and its `Value`, the pair
`[key, value]`. -/
structure Element (K V : Type) where
  handle : Nat
  value : K × V
  deriving DecidableEq, Repr

/-- `LruCache`: `next` is the identity the next `PushFront` allocates. -/
structure LruCache (K V : Type) [DecidableEq K] where
  max : Nat
  count : Nat
  fifo : Bool
  lru : List (Element K V)
  data : AList (fun _ : K => Nat)
  next : Nat

variable {K V : Type}

/-! ## `container/list` -/

/-- The element a pointer of identity `h` designates. -/
def element (h : Nat) (l : List (Element K V)) : Option (Element K V) :=
  l.find? fun e => e.handle = h

/-- `l.MoveToFront(e)`: the element of identity `h` first, the others in their order. -/
def moveToFront (h : Nat) (l : List (Element K V)) : List (Element K V) :=
  match element h l with
  | some e => e :: l.filter fun e => e.handle ≠ h
  | none => l

/-- `e.Value = []interface{}{key, value}` on the element of identity `h`. -/
def setValue (h : Nat) (kv : K × V) (l : List (Element K V)) : List (Element K V) :=
  l.map fun e => if e.handle = h then { e with value := kv } else e

/-- `l.Remove(e)` on the element of identity `h`. -/
def removeElement (h : Nat) (l : List (Element K V)) : List (Element K V) :=
  l.filter fun e => e.handle ≠ h

/-! ## Lists of elements with distinct identities -/

section Elements

variable {l : List (Element K V)}

theorem eq_of_handle_eq (hnd : (l.map Element.handle).Nodup) {x y : Element K V} (hx : x ∈ l)
    (hy : y ∈ l) (h : x.handle = y.handle) : x = y :=
  List.inj_on_of_nodup_map hnd hx hy h

theorem eq_of_key_eq (hnd : (l.map fun e => e.value.1).Nodup) {x y : Element K V} (hx : x ∈ l)
    (hy : y ∈ l) (h : x.value.1 = y.value.1) : x = y :=
  List.inj_on_of_nodup_map hnd hx hy h

/-- The pointer of `x`'s identity designates `x`. -/
theorem element_of_mem (hnd : (l.map Element.handle).Nodup) {x : Element K V} (hx : x ∈ l) :
    element x.handle l = some x := by
  induction l with
  | nil => cases hx
  | cons y l ih =>
    rw [List.map_cons, List.nodup_cons] at hnd
    rcases List.mem_cons.mp hx with rfl | hx'
    · simp [element]
    · have hne : y.handle ≠ x.handle := fun h => hnd.1 (h ▸ List.mem_map_of_mem hx')
      rw [element, List.find?_cons_of_neg (by simpa using hne)]
      exact ih hnd.2 hx'

theorem mem_removeElement {h : Nat} {e : Element K V} :
    e ∈ removeElement h l ↔ e ∈ l ∧ e.handle ≠ h := by
  simp [removeElement]

theorem removeElement_sublist (h : Nat) : (removeElement h l).Sublist l := List.filter_sublist

/-- Removing `x` removes exactly one element. -/
theorem length_removeElement (hnd : (l.map Element.handle).Nodup) {x : Element K V}
    (hx : x ∈ l) : (removeElement x.handle l).length + 1 = l.length := by
  induction l with
  | nil => cases hx
  | cons y l ih =>
    rw [List.map_cons, List.nodup_cons] at hnd
    rcases List.mem_cons.mp hx with rfl | hx'
    · have hall : removeElement x.handle l = l := by
        rw [removeElement, List.filter_eq_self]
        intro e he
        have : e.handle ≠ x.handle := fun h => hnd.1 (h ▸ List.mem_map_of_mem he)
        simpa using this
      simp [removeElement] at hall ⊢
      exact hall
    · have hne : y.handle ≠ x.handle := fun h => hnd.1 (h ▸ List.mem_map_of_mem hx')
      have := ih hnd.2 hx'
      simp only [removeElement, List.filter_cons, ne_eq, hne, not_false_eq_true, decide_true,
        if_true, List.length_cons] at this ⊢
      omega

/-- Updating an element and then removing it is removing it. -/
theorem filter_setValue (h : Nat) (kv : K × V) :
    (setValue h kv l).filter (fun e => e.handle ≠ h) = removeElement h l := by
  induction l with
  | nil => rfl
  | cons e l ih =>
    by_cases he : e.handle = h
    · simpa [setValue, removeElement, List.filter_cons, he] using ih
    · simpa [setValue, removeElement, List.filter_cons, he] using ih

/-- `MoveToFront` after updating the value of `x`: the updated element, then the others. -/
theorem moveToFront_setValue (hnd : (l.map Element.handle).Nodup) {x : Element K V}
    (hx : x ∈ l) (kv : K × V) :
    moveToFront x.handle (setValue x.handle kv l) = ⟨x.handle, kv⟩ :: removeElement x.handle l := by
  have hnd' : ((setValue x.handle kv l).map Element.handle).Nodup := by
    have : (setValue x.handle kv l).map Element.handle = l.map Element.handle := by
      simp only [setValue, List.map_map]
      apply List.map_congr_left
      intro e _
      by_cases h : e.handle = x.handle <;> simp [h]
    rwa [this]
  have hmem : (⟨x.handle, kv⟩ : Element K V) ∈ setValue x.handle kv l :=
    List.mem_map.mpr ⟨x, hx, by simp⟩
  rw [moveToFront, element_of_mem hnd' hmem]
  simp only
  rw [filter_setValue]

/-- `MoveToFront` alone. -/
theorem moveToFront_of_mem (hnd : (l.map Element.handle).Nodup) {x : Element K V} (hx : x ∈ l) :
    moveToFront x.handle l = x :: removeElement x.handle l := by
  rw [moveToFront, element_of_mem hnd hx]
  rfl

/-- Dropping the back element removes it. -/
theorem dropLast_eq_removeElement (hnd : (l.map Element.handle).Nodup) {x : Element K V}
    (hx : l.getLast? = some x) : l.dropLast = removeElement x.handle l := by
  have hl : l = l.dropLast ++ [x] := by
    rw [List.getLast?_eq_some_iff] at hx
    obtain ⟨ys, rfl⟩ := hx
    simp
  rw [hl, List.map_append, List.nodup_append] at hnd
  obtain ⟨-, -, hdisj⟩ := hnd
  conv_rhs => rw [hl]
  rw [removeElement, List.filter_append]
  have hself : l.dropLast.filter (fun e => e.handle ≠ x.handle) = l.dropLast := by
    rw [List.filter_eq_self]
    intro e he
    have := hdisj e.handle (List.mem_map_of_mem he) x.handle (by simp)
    simpa using this
  rw [hself]
  simp

end Elements

variable [DecidableEq K]

/-- Removing `x` from the list removes `x`'s key from the values. -/
theorem values_removeElement {l : List (Element K V)} (hnd : (l.map Element.handle).Nodup)
    (hkeys : (l.map fun e => e.value.1).Nodup) {x : Element K V} (hx : x ∈ l) :
    (removeElement x.handle l).map Element.value =
      RecencyMap.without x.value.1 (l.map Element.value) := by
  rw [RecencyMap.without, List.filter_map, removeElement]
  congr 1
  apply List.filter_congr
  intro e he
  have hiff : e.handle ≠ x.handle ↔ e.value.1 ≠ x.value.1 :=
    ⟨fun h hk => h (congrArg Element.handle (eq_of_key_eq hkeys he hx hk)),
      fun h hh => h (congrArg (·.value.1) (eq_of_handle_eq hnd he hx hh))⟩
  simp [hiff]

namespace LruCache

/-- `NewLruCache`. -/
def newLruCache (max : Nat) (fifo : Bool) : LruCache K V := ⟨max, 0, fifo, [], ∅, 0⟩

/-- The eviction in `Put` when the cache is full: the back element and its key go. `Back()`
of an empty list is nil, which Go dereferences and panics on; that needs `max ≤ 0`. -/
def evict (c : LruCache K V) : LruCache K V :=
  match c.lru.getLast? with
  | some e => { c with data := c.data.erase e.value.1, lru := c.lru.dropLast, count := c.count - 1 }
  | none => c

/-- `Put`. -/
def put (c : LruCache K V) (key : K) (value : V) : LruCache K V :=
  match c.data.lookup key with
  | some h => { c with lru := moveToFront h (setValue h (key, value) c.lru) }
  | none =>
    let c := if c.max ≤ c.count then c.evict else c
    { c with
      lru := ⟨c.next, (key, value)⟩ :: c.lru
      data := c.data.insert key c.next
      count := c.count + 1
      next := c.next + 1 }

/-- `Get`: the value, nil if the key is absent. -/
def get (c : LruCache K V) (key : K) : Option V × LruCache K V :=
  match c.data.lookup key with
  | none => (none, c)
  | some h =>
    ((element h c.lru).map (·.value.2), if c.fifo then c else { c with lru := moveToFront h c.lru })

/-- `Exists`. -/
def existsKey (c : LruCache K V) (key : K) : Bool := (c.data.lookup key).isSome

/-- `Del`: the key of the element (`e.Value[0]`) leaves the map, the element leaves the
list. -/
def del (c : LruCache K V) (key : K) : Bool × LruCache K V :=
  match c.data.lookup key with
  | none => (false, c)
  | some h =>
    match element h c.lru with
    | some e =>
      (true, { c with
        data := c.data.erase e.value.1
        lru := removeElement h c.lru
        count := c.count - 1 })
    | none => (true, { c with data := c.data.erase key, count := c.count - 1 })

/-- `Clear`: a new list and a new map. -/
def clear (c : LruCache K V) : LruCache K V := { c with count := 0, lru := [], data := ∅ }

/-- One call. -/
def step (c : LruCache K V) : LruCall K V → LruReply V × LruCache K V
  | .put k v => (.done, c.put k v)
  | .get k => (.value (c.get k).1, (c.get k).2)
  | .del k => (.flag (c.del k).1, (c.del k).2)
  | .existsKey k => (.flag (c.existsKey k), c)
  | .clear => (.done, c.clear)
  | .count => (.count c.count, c)

/-- The cache as a machine. -/
def machine : Machine (LruCache K V) (LruCall K V) (LruReply V) := ⟨step⟩

/-- The three structures in lockstep: the counter is the length of the list and the number
of keys in the map, each key of the map designates the element holding it, no key is in two
elements, and the counter is within the bound. -/
structure WellFormed (c : LruCache K V) : Prop where
  count_eq_length : c.count = c.lru.length
  keys_eq_length : c.data.entries.length = c.lru.length
  data_iff : ∀ k h, c.data.lookup k = some h ↔ ∃ v, (⟨h, (k, v)⟩ : Element K V) ∈ c.lru
  keys_nodup : (c.lru.map fun e => e.value.1).Nodup
  count_le_max : c.count ≤ c.max

/-! ## The invariant of the three structures -/

/-- What every cache reachable from `NewLruCache(max, fifo)` with `max ≥ 1` satisfies: the
bound is positive, the counter is the list's length, identities and keys are distinct in the
list, the map sends each key to the identity of the element holding it, every identity was
allocated before `next`, and the counter is within the bound. -/
structure Inv (c : LruCache K V) : Prop where
  max_pos : 1 ≤ c.max
  count_eq_length : c.count = c.lru.length
  handles_nodup : (c.lru.map Element.handle).Nodup
  keys_nodup : (c.lru.map fun e => e.value.1).Nodup
  data_iff : ∀ k h, c.data.lookup k = some h ↔ ∃ v, (⟨h, (k, v)⟩ : Element K V) ∈ c.lru
  fresh : ∀ e ∈ c.lru, e.handle < c.next
  count_le_max : c.count ≤ c.max

/-- The abstract cache a cache stands for: the pairs of its list, in order. -/
def abs (c : LruCache K V) : RecencyMap K V := ⟨c.max, c.fifo, c.lru.map Element.value⟩

@[simp] theorem abs_max (c : LruCache K V) : (abs c).max = c.max := rfl

@[simp] theorem abs_fifo (c : LruCache K V) : (abs c).fifo = c.fifo := rfl

@[simp] theorem abs_entries (c : LruCache K V) : (abs c).entries = c.lru.map Element.value := rfl

theorem inv_newLruCache {max : Nat} (h : 1 ≤ max) (fifo : Bool) :
    (newLruCache max fifo : LruCache K V).Inv where
  max_pos := h
  count_eq_length := rfl
  handles_nodup := List.nodup_nil
  keys_nodup := List.nodup_nil
  data_iff k h := by simp [newLruCache]
  fresh e he := by cases he
  count_le_max := Nat.zero_le _

section Invariant

variable {c : LruCache K V} (hc : c.Inv)
include hc

/-- A key is in the list exactly when the map has it. -/
theorem Inv.key_mem_iff (k : K) :
    k ∈ c.lru.map (fun e => e.value.1) ↔ (c.data.lookup k).isSome := by
  constructor
  · intro hk
    obtain ⟨e, he, rfl⟩ := List.mem_map.mp hk
    have := (hc.data_iff e.value.1 e.handle).mpr ⟨e.value.2, by simpa using he⟩
    simp [this]
  · intro hs
    obtain ⟨h, hh⟩ := Option.isSome_iff_exists.mp hs
    obtain ⟨v, hv⟩ := (hc.data_iff k h).mp hh
    exact List.mem_map.mpr ⟨_, hv, rfl⟩

theorem Inv.abs_keys_nodup : ((abs c).entries.map Prod.fst).Nodup := by
  simpa [abs, List.map_map, Function.comp_def] using hc.keys_nodup

/-- A key the map has designates an element whose pair the abstract cache finds. -/
theorem Inv.lookup_some {k : K} {h : Nat} (hk : c.data.lookup k = some h) :
    ∃ v, (⟨h, (k, v)⟩ : Element K V) ∈ c.lru ∧ (c.lru.map Element.value).lookup k = some v := by
  obtain ⟨v, hv⟩ := (hc.data_iff k h).mp hk
  exact ⟨v, hv, RecencyMap.lookup_of_mem hc.abs_keys_nodup (List.mem_map_of_mem hv)⟩

/-- A key the map lacks is in no element, and the abstract cache lacks it. -/
theorem Inv.lookup_none {k : K} (hk : c.data.lookup k = none) :
    (c.lru.map Element.value).lookup k = none := by
  rw [RecencyMap.lookup_eq_none_iff_not_mem]
  have : k ∉ c.lru.map (fun e => e.value.1) := by simp [hc.key_mem_iff, hk]
  simpa [List.map_map, Function.comp_def] using this

/-- **The three structures are in lockstep.** -/
theorem Inv.wellFormed : c.WellFormed where
  count_eq_length := hc.count_eq_length
  keys_eq_length := by
    have hperm : c.data.keys.Perm (c.lru.map fun e => e.value.1) := by
      rw [List.perm_ext_iff_of_nodup c.data.keys_nodup hc.keys_nodup]
      intro k
      rw [← AList.mem_keys, ← AList.lookup_isSome, hc.key_mem_iff]
    simpa [AList.keys, List.keys] using hperm.length_eq
  data_iff := hc.data_iff
  keys_nodup := hc.keys_nodup
  count_le_max := hc.count_le_max

/-- Moving the element of `k` first, with a new value (`Put` of a known key, `Get` when not
`fifo`), keeps the invariant. -/
theorem Inv.promote {h : Nat} {k : K} {v₀ : V} (hx : (⟨h, (k, v₀)⟩ : Element K V) ∈ c.lru)
    (v : V) : Inv { c with lru := ⟨h, (k, v)⟩ :: removeElement h c.lru } := by
  have hlen : (removeElement h c.lru).length + 1 = c.lru.length :=
    length_removeElement hc.handles_nodup hx
  have hsame : ∀ e ∈ c.lru, e.handle = h → e = ⟨h, (k, v₀)⟩ :=
    fun e he hh => eq_of_handle_eq hc.handles_nodup he hx hh
  have hsameKey : ∀ e ∈ c.lru, e.value.1 = k → e = ⟨h, (k, v₀)⟩ :=
    fun e he hk => eq_of_key_eq hc.keys_nodup he hx hk
  refine ⟨hc.max_pos, ?_, ?_, ?_, ?_, ?_, hc.count_le_max⟩
  · have := hc.count_eq_length
    simp only [List.length_cons]
    omega
  · rw [List.map_cons, List.nodup_cons]
    refine ⟨by simp [mem_removeElement], ?_⟩
    exact hc.handles_nodup.sublist ((removeElement_sublist h).map _)
  · rw [List.map_cons, List.nodup_cons]
    refine ⟨?_, hc.keys_nodup.sublist ((removeElement_sublist h).map _)⟩
    intro hk
    obtain ⟨e, he, hek⟩ := List.mem_map.mp hk
    rw [mem_removeElement] at he
    exact he.2 (by rw [hsameKey e he.1 hek])
  · intro k' h'
    rw [hc.data_iff]
    constructor
    · rintro ⟨v', hv'⟩
      by_cases hh : h' = h
      · -- the element of identity `h` is the one promoted
        obtain ⟨-, rfl, -⟩ := Element.mk.inj (hsame _ hv' hh)
        exact ⟨v, by simp [hh]⟩
      · exact ⟨v', List.mem_cons_of_mem _ (mem_removeElement.mpr ⟨hv', hh⟩)⟩
    · rintro ⟨v', hv'⟩
      rcases List.mem_cons.mp hv' with heq | hv'
      · obtain ⟨rfl, hkv⟩ := Element.mk.inj heq
        obtain ⟨rfl, -⟩ := Prod.mk.inj hkv
        exact ⟨v₀, hx⟩
      · exact ⟨v', (mem_removeElement.mp hv').1⟩
  · intro e he
    rcases List.mem_cons.mp he with rfl | he
    · exact (hc.fresh _ hx : h < c.next)
    · exact hc.fresh e (mem_removeElement.mp he).1

/-- Removing the element of `k` and its key (`Del`, and the eviction in `Put`) keeps the
invariant. -/
theorem Inv.remove {h : Nat} {k : K} {v₀ : V} (hx : (⟨h, (k, v₀)⟩ : Element K V) ∈ c.lru) :
    Inv { c with data := c.data.erase k, lru := removeElement h c.lru, count := c.count - 1 } := by
  have hlen : (removeElement h c.lru).length + 1 = c.lru.length :=
    length_removeElement hc.handles_nodup hx
  have hsame : ∀ e ∈ c.lru, e.handle = h → e = ⟨h, (k, v₀)⟩ :=
    fun e he hh => eq_of_handle_eq hc.handles_nodup he hx hh
  have hsameKey : ∀ e ∈ c.lru, e.value.1 = k → e = ⟨h, (k, v₀)⟩ :=
    fun e he hk => eq_of_key_eq hc.keys_nodup he hx hk
  refine ⟨hc.max_pos, ?_, ?_, ?_, ?_, ?_, ?_⟩
  · have := hc.count_eq_length
    simp only
    omega
  · exact hc.handles_nodup.sublist ((removeElement_sublist h).map _)
  · exact hc.keys_nodup.sublist ((removeElement_sublist h).map _)
  · intro k' h'
    by_cases hk : k' = k
    · -- the key removed from the map is in no element left
      subst hk
      simp only [AList.lookup_erase, reduceCtorEq, false_iff, not_exists]
      intro v' hv'
      rw [mem_removeElement] at hv'
      exact hv'.2 (congrArg Element.handle (hsameKey _ hv'.1 rfl))
    · rw [AList.lookup_erase_ne hk, hc.data_iff]
      constructor
      · rintro ⟨v', hv'⟩
        refine ⟨v', mem_removeElement.mpr ⟨hv', fun hh => hk ?_⟩⟩
        obtain ⟨-, hkv⟩ := Element.mk.inj (hsame _ hv' hh)
        exact (Prod.mk.inj hkv).1
      · rintro ⟨v', hv'⟩
        exact ⟨v', (mem_removeElement.mp hv').1⟩
  · intro e he
    exact hc.fresh e (mem_removeElement.mp he).1
  · have := hc.count_le_max
    simp only
    omega

/-- Pushing a new key's element first (`Put` of a new key into a cache that is not full) keeps
the invariant. -/
theorem Inv.push {k : K} (hk : c.data.lookup k = none) (hlt : c.count < c.max) (v : V) :
    Inv { c with
      lru := ⟨c.next, (k, v)⟩ :: c.lru
      data := c.data.insert k c.next
      count := c.count + 1
      next := c.next + 1 } := by
  have hnew : ∀ e ∈ c.lru, e.value.1 ≠ k := by
    intro e he hek
    have := (hc.key_mem_iff k).mp (List.mem_map.mpr ⟨e, he, hek⟩)
    simp [hk] at this
  refine ⟨hc.max_pos, ?_, ?_, ?_, ?_, ?_, ?_⟩
  · simp [hc.count_eq_length]
  · rw [List.map_cons, List.nodup_cons]
    refine ⟨fun hm => ?_, hc.handles_nodup⟩
    obtain ⟨e, he, hek⟩ := List.mem_map.mp hm
    have := hc.fresh e he
    simp only at hek
    omega
  · rw [List.map_cons, List.nodup_cons]
    refine ⟨fun hm => ?_, hc.keys_nodup⟩
    obtain ⟨e, he, hek⟩ := List.mem_map.mp hm
    exact hnew e he hek
  · intro k' h'
    by_cases hk' : k' = k
    · -- the new key designates the new element and no other
      subst hk'
      simp only [AList.lookup_insert, Option.some.injEq, List.mem_cons, Element.mk.injEq,
        Prod.mk.injEq, true_and]
      constructor
      · rintro rfl
        exact ⟨v, Or.inl ⟨rfl, rfl⟩⟩
      · rintro ⟨v', ⟨rfl, -⟩ | hv'⟩
        · rfl
        · exact absurd rfl (hnew _ hv')
    · rw [AList.lookup_insert_ne hk', hc.data_iff]
      simp [hk']
  · intro e he
    rcases List.mem_cons.mp he with rfl | he
    · simp
    · have := hc.fresh e he
      simp only
      omega
  · simp only
    omega

/-- A full cache evicts its back element, whose identity and key it drops. -/
theorem Inv.evict_eq (hfull : c.max ≤ c.count) :
    ∃ e ∈ c.lru, c.lru.getLast? = some e ∧
      c.evict = { c with
        data := c.data.erase e.value.1
        lru := removeElement e.handle c.lru
        count := c.count - 1 } := by
  have hne : c.lru ≠ [] := by
    intro hnil
    have hcount := hc.count_eq_length
    have := hc.max_pos
    simp only [hnil, List.length_nil] at hcount
    omega
  obtain ⟨e, he⟩ : ∃ e, c.lru.getLast? = some e := ⟨_, List.getLast?_eq_some_getLast hne⟩
  refine ⟨e, List.mem_of_getLast? he, he, ?_⟩
  unfold evict
  rw [he, dropLast_eq_removeElement hc.handles_nodup he]

end Invariant

/-! ## Each call agrees with the abstract cache -/

/-- A call `op` on `c` has the reply of the abstract call on `abs c`, keeps the invariant,
and leads to a cache whose abstraction is the abstract cache after the call. -/
def StepAgrees (c : LruCache K V) (op : LruCall K V) : Prop :=
  (c.step op).1 = ((abs c).step op).1 ∧ (c.step op).2.Inv ∧ abs (c.step op).2 = ((abs c).step op).2

section Agreement

variable {c : LruCache K V} (hc : c.Inv)
include hc

theorem Inv.put_agrees (k : K) (v : V) : c.StepAgrees (.put k v) := by
  simp only [StepAgrees, step, put]
  cases hk : c.data.lookup k with
  | some h =>
    -- a known key: its element is updated and moved first
    obtain ⟨v₀, hx, hv⟩ := hc.lookup_some hk
    have hmove : moveToFront h (setValue h (k, v) c.lru) = ⟨h, (k, v)⟩ :: removeElement h c.lru :=
      moveToFront_setValue hc.handles_nodup hx (k, v)
    refine ⟨(RecencyMap.step_put_reply _ k v).symm, by simpa only [hmove] using hc.promote hx v, ?_⟩
    simp [abs, RecencyMap.step, hv, hmove, values_removeElement hc.handles_nodup hc.keys_nodup hx]
  | none =>
    have hnone := hc.lookup_none hk
    have hcount := hc.count_eq_length
    by_cases hfull : c.max ≤ c.count
    · -- a new key into a full cache: the back element goes first
      obtain ⟨e, he, hlast, hev⟩ := hc.evict_eq hfull
      have hc₁ := hc.remove (show (⟨e.handle, (e.value.1, e.value.2)⟩ : Element K V) ∈ c.lru from he)
      have hk₁ : (c.data.erase e.value.1).lookup k = none := by
        rw [AList.lookup_eq_none, AList.mem_erase, not_and_or, not_not]
        exact Or.inr (AList.lookup_eq_none.mp hk)
      have hlt₁ : c.count - 1 < c.max := by
        have := hc.count_le_max
        have := hc.max_pos
        omega
      simp only [if_pos hfull, hev]
      refine ⟨(RecencyMap.step_put_reply _ k v).symm, hc₁.push hk₁ hlt₁ v, ?_⟩
      simp [abs, RecencyMap.step, hnone, ← dropLast_eq_removeElement hc.handles_nodup hlast,
        List.map_dropLast, ← hcount, hfull]
    · simp only [if_neg hfull]
      refine ⟨(RecencyMap.step_put_reply _ k v).symm, hc.push hk (by omega) v, ?_⟩
      simp [abs, RecencyMap.step, hnone, ← hcount, hfull]

theorem Inv.get_agrees (k : K) : c.StepAgrees (.get k) := by
  simp only [StepAgrees, step, RecencyMap.step_get_reply, abs_entries, get]
  cases hk : c.data.lookup k with
  | none => simp [hc, abs, hc.lookup_none hk, RecencyMap.step]
  | some h =>
    obtain ⟨v₀, hx, hv⟩ := hc.lookup_some hk
    have hel : element h c.lru = some ⟨h, (k, v₀)⟩ := element_of_mem hc.handles_nodup hx
    by_cases hf : c.fifo = true
    · simp [hc, hv, hel, hf, RecencyMap.step]
    · -- not `fifo`: the element read is moved first
      have hmove : moveToFront h c.lru = ⟨h, (k, v₀)⟩ :: removeElement h c.lru :=
        moveToFront_of_mem hc.handles_nodup hx
      dsimp only
      rw [if_neg hf]
      refine ⟨by simp [hv, hel], by simpa only [hmove] using hc.promote hx v₀, ?_⟩
      simp [abs, RecencyMap.step, hv, hf, hmove,
        values_removeElement hc.handles_nodup hc.keys_nodup hx]

theorem Inv.del_agrees (k : K) : c.StepAgrees (.del k) := by
  simp only [StepAgrees, step, del]
  cases hk : c.data.lookup k with
  | none =>
    have hnone := hc.lookup_none hk
    have hwithout : RecencyMap.without k (c.lru.map Element.value) = c.lru.map Element.value :=
      RecencyMap.without_of_not_mem (RecencyMap.lookup_eq_none_iff_not_mem.mp hnone)
    simp [hc, abs, hnone, RecencyMap.step, hwithout]
  | some h =>
    obtain ⟨v₀, hx, hv⟩ := hc.lookup_some hk
    have hel : element h c.lru = some ⟨h, (k, v₀)⟩ := element_of_mem hc.handles_nodup hx
    refine ⟨by simp [abs, hel, hv, RecencyMap.step], by simpa [hel] using hc.remove hx, ?_⟩
    simp [abs, RecencyMap.step, hel, values_removeElement hc.handles_nodup hc.keys_nodup hx]

theorem Inv.existsKey_agrees (k : K) : c.StepAgrees (.existsKey k) := by
  refine ⟨?_, hc, rfl⟩
  cases hk : c.data.lookup k with
  | none => simp [step, RecencyMap.step, existsKey, hk, hc.lookup_none hk]
  | some h =>
    obtain ⟨v₀, -, hv⟩ := hc.lookup_some hk
    simp [step, RecencyMap.step, existsKey, hk, hv]

theorem Inv.clear_agrees : c.StepAgrees .clear := by
  refine ⟨rfl, ?_, rfl⟩
  exact ⟨hc.max_pos, rfl, List.nodup_nil, List.nodup_nil, by simp [step, clear],
    by simp [step, clear], Nat.zero_le _⟩

theorem Inv.count_agrees : c.StepAgrees .count := by
  refine ⟨?_, hc, rfl⟩
  simp [step, RecencyMap.step, abs, hc.count_eq_length]

/-- **One step.** Every call agrees with the abstract cache. -/
theorem Inv.step_agrees : ∀ op, c.StepAgrees op
  | .put k v => hc.put_agrees k v
  | .get k => hc.get_agrees k
  | .del k => hc.del_agrees k
  | .existsKey k => hc.existsKey_agrees k
  | .clear => hc.clear_agrees
  | .count => hc.count_agrees

end Agreement

/-- The cache simulates the abstract cache, with `Inv` as the invariant and `abs` as the
abstraction. -/
def simulation : Simulation (machine : Machine (LruCache K V) _ _) RecencyMap.machine where
  inv := Inv
  abs := abs
  step_inv _ op hc := (hc.step_agrees op).2.1
  step_reply _ op hc := (hc.step_agrees op).1
  step_abs _ op hc := (hc.step_agrees op).2.2

/-! ## Runs from `NewLruCache` -/

section Reachable

variable {max : Nat} (hmax : 1 ≤ max) (fifo : Bool) (ops : List (LruCall K V))
include hmax

theorem inv_run : (machine.run (newLruCache max fifo) ops).2.Inv :=
  machine.run_inv simulation.step_inv _ ops (inv_newLruCache hmax fifo)

theorem run_replies_eq :
    (machine.run (newLruCache max fifo) ops).1 =
      (RecencyMap.machine.run (RecencyMap.empty max fifo) ops).1 :=
  simulation.run_replies _ ops (inv_newLruCache hmax fifo)

theorem abs_run :
    abs (machine.run (newLruCache max fifo) ops).2 =
      (RecencyMap.machine.run (RecencyMap.empty max fifo) ops).2 :=
  simulation.run_abs _ ops (inv_newLruCache hmax fifo)

end Reachable

/-- **`LruCache` refines the bounded recency map.** From `NewLruCache(max, fifo)` with
`max ≥ 1`, every sequence of calls has the replies of the abstract cache and ends in a cache
whose counter, map and list are in lockstep, and whose list holds its pairs in decreasing
order of their keys' last touch, each with the value of its key's last `Put`. -/
theorem lruCache_refines_recencyMap (max : Nat) (hmax : 1 ≤ max) (fifo : Bool)
    (ops : List (LruCall K V)) :
    (machine.run (newLruCache max fifo) ops).1 =
        (RecencyMap.machine.run (RecencyMap.empty max fifo) ops).1 ∧
      (machine.run (newLruCache max fifo) ops).2.WellFormed ∧
      (abs (machine.run (newLruCache max fifo) ops).2).RecentAfter ops := by
  refine ⟨run_replies_eq hmax fifo ops, (inv_run hmax fifo ops).wellFormed, ?_⟩
  rw [abs_run hmax]
  exact (RecencyMap.run_recent hmax fifo ops).1

/-- Two entries in a cache of two: the third `Put` evicts the key not read since. -/
theorem lruCache_refines_recencyMap_two :
    1 ≤ 2 ∧
      (machine.run (newLruCache 2 false)
          [.put 1 10, .put 2 20, .get 1, .put 3 30, .get 2, .get 1, .count]).1 =
        (RecencyMap.machine.run (RecencyMap.empty 2 false)
          [.put 1 10, .put 2 20, .get 1, .put 3 30, .get 2, .get 1, .count]).1 ∧
      (machine.run (newLruCache 2 false)
          ([.put 1 10, .put 2 20, .get 1, .put 3 30, .get 2, .get 1, .count] :
            List (LruCall Nat Nat))).2.WellFormed ∧
      (abs (machine.run (newLruCache 2 false)
          ([.put 1 10, .put 2 20, .get 1, .put 3 30, .get 2, .get 1, .count] :
            List (LruCall Nat Nat))).2).RecentAfter
        [.put 1 10, .put 2 20, .get 1, .put 3 30, .get 2, .get 1, .count] :=
  ⟨by decide, lruCache_refines_recencyMap 2 (by decide) false _⟩

/-! ## What a caller of the cache sees -/

end LruCache

end GoMetadium.Common
