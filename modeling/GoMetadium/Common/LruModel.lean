import GoMetadium.Lib.Machine

set_option autoImplicit false

/-! # What `LruCache` is for: a bounded map in recency order

The abstract cache keeps its entries in a list, most recent first, with distinct keys:

* `Put(k, v)` puts `(k, v)` first, dropping the old entry of `k`; if `k` is new and the
  cache holds `max` entries, the last (oldest) one is dropped;
* `Get(k)` returns the value of the entry of `k`, if any; unless the cache is `fifo` it also
  moves that entry first;
* `Del(k)` drops the entry of `k` and says whether there was one, `Exists(k)` says whether
  there is one, `Clear` drops all entries and `Count` counts them.

So `Get(k)` returns the value of the latest `Put(k)` unless `k` was deleted, cleared or
evicted since, and the key a full cache evicts is the oldest in insertion and update order,
and, when the cache is not `fifo`, access order.
-/

namespace GoMetadium.Common

/-- A call of the interface of `LruCache`. -/
inductive LruCall (K V : Type) where
  | put (key : K) (value : V)
  | get (key : K)
  | del (key : K)
  | existsKey (key : K)
  | clear
  | count
  deriving DecidableEq, Repr

/-- The reply of a call: nothing (`Put`, `Clear`), a value or nil (`Get`), a flag (`Del`,
`Exists`), a number (`Count`). -/
inductive LruReply (V : Type) where
  | done
  | value (v : Option V)
  | flag (b : Bool)
  | count (n : Nat)
  deriving DecidableEq, Repr

/-- The abstract cache: its bound, its mode and its entries, most recent first. -/
structure RecencyMap (K V : Type) where
  max : Nat
  fifo : Bool
  entries : List (K × V)
  deriving DecidableEq, Repr

namespace RecencyMap

variable {K V : Type} [DecidableEq K]

/-- The entries without the one of `k`. -/
def without (k : K) (es : List (K × V)) : List (K × V) := es.filter fun e => e.1 ≠ k

/-- One call on the abstract cache. -/
def step (m : RecencyMap K V) : LruCall K V → LruReply V × RecencyMap K V
  | .put k v =>
    if (m.entries.lookup k).isSome then (.done, { m with entries := (k, v) :: without k m.entries })
    else if m.max ≤ m.entries.length then
      (.done, { m with entries := (k, v) :: m.entries.dropLast })
    else (.done, { m with entries := (k, v) :: m.entries })
  | .get k =>
    match m.entries.lookup k with
    | none => (.value none, m)
    | some v =>
      (.value (some v), if m.fifo then m else { m with entries := (k, v) :: without k m.entries })
  | .del k => (.flag (m.entries.lookup k).isSome, { m with entries := without k m.entries })
  | .existsKey k => (.flag (m.entries.lookup k).isSome, m)
  | .clear => (.done, { m with entries := [] })
  | .count => (.count m.entries.length, m)

/-- A `Put` replies nothing. -/
theorem step_put_reply (m : RecencyMap K V) (k : K) (v : V) : (m.step (.put k v)).1 = .done := by
  simp only [step]
  split_ifs <;> rfl

/-- A `Get` replies the value of the key's entry, if any. -/
theorem step_get_reply (m : RecencyMap K V) (k : K) :
    (m.step (.get k)).1 = .value (m.entries.lookup k) := by
  cases hk : m.entries.lookup k <;> simp [step, hk]

/-- The abstract cache as a machine. -/
def machine : Machine (RecencyMap K V) (LruCall K V) (LruReply V) := ⟨step⟩

/-- The empty cache. -/
def empty (max : Nat) (fifo : Bool) : RecencyMap K V := ⟨max, fifo, []⟩

/-! ## The abstract cache keeps its promises -/

/-- Distinct keys and at most `max` entries (for a positive `max`). -/
def Bounded (m : RecencyMap K V) : Prop :=
  (m.entries.map Prod.fst).Nodup ∧ m.entries.length ≤ m.max

theorem without_nodup {k : K} {es : List (K × V)} (h : (es.map Prod.fst).Nodup) :
    ((without k es).map Prod.fst).Nodup :=
  h.sublist (List.Sublist.map _ List.filter_sublist)

theorem not_mem_without (k : K) (es : List (K × V)) : k ∉ (without k es).map Prod.fst := by
  simp [without]

theorem lookup_eq_none_iff_not_mem {k : K} {es : List (K × V)} :
    es.lookup k = none ↔ k ∉ es.map Prod.fst := by
  simp only [List.lookup_eq_none_iff, bne_iff_ne, ne_eq, List.mem_map, not_exists, not_and]
  exact ⟨fun h e he hek => h e he hek.symm, fun h e he hek => h e he hek.symm⟩

theorem without_of_not_mem {k : K} {es : List (K × V)} (h : k ∉ es.map Prod.fst) :
    without k es = es := by
  rw [without, List.filter_eq_self]
  intro e he
  have : e.1 ≠ k := fun hek => h (hek ▸ List.mem_map_of_mem he)
  simpa using this

/-- With distinct keys, an entry is what `lookup` finds for its key. -/
theorem lookup_of_mem {k : K} {v : V} {es : List (K × V)} (h : (es.map Prod.fst).Nodup)
    (hm : (k, v) ∈ es) : es.lookup k = some v := by
  induction es with
  | nil => cases hm
  | cons e es ih =>
    rw [List.map_cons, List.nodup_cons] at h
    rcases List.mem_cons.mp hm with rfl | hm'
    · simp [List.lookup]
    · have hne : (k == e.1) = false := by
        simpa using fun hk : k = e.1 => h.1 (hk ▸ List.mem_map_of_mem hm')
      simp [List.lookup, hne, ih h.2 hm']

/-- What `lookup` finds is an entry. -/
theorem mem_of_lookup {k : K} {v : V} {es : List (K × V)} (h : es.lookup k = some v) :
    (k, v) ∈ es := by
  obtain ⟨l₁, l₂, rfl, -⟩ := List.lookup_eq_some_iff.mp h
  simp

/-- With distinct keys, the entry `lookup` finds is the only entry of its key. -/
theorem length_without {k : K} {v : V} {es : List (K × V)} (h : (es.map Prod.fst).Nodup)
    (hk : es.lookup k = some v) : (without k es).length + 1 = es.length := by
  obtain ⟨l₁, l₂, rfl, -⟩ := List.lookup_eq_some_iff.mp hk
  rw [List.map_append, List.map_cons, List.nodup_append] at h
  obtain ⟨-, h2, h12⟩ := h
  have hk1 : k ∉ l₁.map Prod.fst := fun hm => h12 k hm k (List.mem_cons_self) rfl
  have hk2 : k ∉ l₂.map Prod.fst := (List.nodup_cons.mp h2).1
  have hsplit : without k (l₁ ++ (k, v) :: l₂) = without k l₁ ++ without k l₂ := by
    simp [without, List.filter_append]
  rw [hsplit, without_of_not_mem hk1, without_of_not_mem hk2]
  simp
  omega

/-- Every call keeps the keys distinct and the count within a positive bound. -/
theorem step_bounded {m : RecencyMap K V} (hmax : 1 ≤ m.max) (hm : m.Bounded) (c : LruCall K V) :
    (m.step c).2.Bounded := by
  obtain ⟨hnd, hlen⟩ := hm
  cases c with
  | put k v =>
    simp only [step]
    split
    · rename_i hk
      obtain ⟨v0, hv0⟩ := Option.isSome_iff_exists.mp hk
      have := length_without hnd hv0
      exact ⟨List.nodup_cons.mpr ⟨not_mem_without k _, without_nodup hnd⟩, by simp; omega⟩
    · rename_i hk
      have hk' : k ∉ m.entries.map Prod.fst := by
        rw [← lookup_eq_none_iff_not_mem]
        exact Option.not_isSome_iff_eq_none.mp hk
      split
      · refine ⟨List.nodup_cons.mpr ⟨fun hm => hk' ?_, ?_⟩, by simp; omega⟩
        · exact List.map_subset _ (List.dropLast_subset _) hm
        · exact hnd.sublist (List.Sublist.map _ (List.dropLast_sublist _))
      · exact ⟨List.nodup_cons.mpr ⟨hk', hnd⟩, by simp; omega⟩
  | get k =>
    simp only [step]
    split
    · exact ⟨hnd, hlen⟩
    · rename_i v hv
      split
      · exact ⟨hnd, hlen⟩
      · have := length_without hnd hv
        exact ⟨List.nodup_cons.mpr ⟨not_mem_without k _, without_nodup hnd⟩, by simp; omega⟩
  | del k =>
    exact ⟨without_nodup hnd, le_trans (List.length_filter_le _ _) hlen⟩
  | existsKey k => exact ⟨hnd, hlen⟩
  | clear => exact ⟨List.nodup_nil, Nat.zero_le _⟩
  | count => exact ⟨hnd, hlen⟩

@[simp] theorem step_fifo (m : RecencyMap K V) (op : LruCall K V) :
    (m.step op).2.fifo = m.fifo := by
  cases op with
  | put k v => simp only [step]; split_ifs <;> rfl
  | get k => simp only [step]; split <;> (try split) <;> rfl
  | _ => rfl

@[simp] theorem step_max (m : RecencyMap K V) (op : LruCall K V) :
    (m.step op).2.max = m.max := by
  cases op with
  | put k v => simp only [step]; split_ifs <;> rfl
  | get k => simp only [step]; split <;> (try split) <;> rfl
  | _ => rfl

/-! ## Recency order and the latest `Put`

Which key is the oldest is a fact about the calls made so far. A call touches `k` when it is
a `Put` of `k`, or a `Get` of `k` on a cache that is not `fifo`. `lastTouch` is one more than
the position of the last call that touches `k` (zero if none does), and `lastPut` is the value
of the last `Put` of `k`. Every run from the empty cache keeps its entries in strictly
decreasing `lastTouch` order, each with the value of its key's last `Put`; so the entry a full
cache drops is the least recently touched one. -/

/-- Whether a call makes `k` the most recent key. -/
def touches (fifo : Bool) (k : K) : LruCall K V → Bool
  | .put k' _ => decide (k' = k)
  | .get k' => !fifo && decide (k' = k)
  | _ => false

/-- One more than the position of the last call of `ops` that touches `k`; zero if none
does. -/
def lastTouch (fifo : Bool) (k : K) (ops : List (LruCall K V)) : Nat :=
  ops.zipIdx.foldl (fun t p => if touches fifo k p.1 then p.2 + 1 else t) 0

/-- The value of the last `Put` of `k`, given that of the calls before. -/
def putValue (k : K) (r : Option V) : LruCall K V → Option V
  | .put k' v => if k' = k then some v else r
  | _ => r

/-- The value of the last `Put` of `k` in `ops`. -/
def lastPut (k : K) (ops : List (LruCall K V)) : Option V := ops.foldl (putValue k) none

section History

variable {fifo : Bool} {k : K} {ops : List (LruCall K V)}

theorem lastTouch_append (op : LruCall K V) :
    lastTouch fifo k (ops ++ [op]) = if touches fifo k op then ops.length + 1 else lastTouch fifo k ops := by
  simp [lastTouch, List.zipIdx_append, List.foldl_append]

theorem lastTouch_append_of_not_touches {op : LruCall K V} (h : touches fifo k op = false) :
    lastTouch fifo k (ops ++ [op]) = lastTouch fifo k ops := by
  rw [lastTouch_append, if_neg (by simp [h])]

theorem lastTouch_le_length : lastTouch fifo k ops ≤ ops.length := by
  induction ops using List.reverseRecOn with
  | nil => rfl
  | append_singleton ops op ih =>
    rw [lastTouch_append]
    split <;> simp only [List.length_append, List.length_singleton] <;> omega

theorem lastPut_append (op : LruCall K V) :
    lastPut k (ops ++ [op]) = putValue k (lastPut k ops) op := by
  simp [lastPut, List.foldl_append]

end History

/-- Entries in strictly decreasing order of `touch`, each with the value `latest` gives its
key. -/
structure Recent (es : List (K × V)) (touch : K → Nat) (latest : K → Option V) : Prop where
  sorted : es.Pairwise fun a b => touch b.1 < touch a.1
  latest_eq : ∀ e ∈ es, latest e.1 = some e.2

section Recent

variable {es rest : List (K × V)} {touch touch' : K → Nat} {latest latest' : K → Option V}

omit [DecidableEq K] in
theorem recent_nil : Recent ([] : List (K × V)) touch latest := ⟨List.Pairwise.nil, by simp⟩

omit [DecidableEq K] in
/-- Dropping entries keeps the order, for keys whose times and values do not change. -/
theorem Recent.sublist (h : Recent es touch latest) (hs : rest.Sublist es)
    (ht : ∀ e ∈ rest, touch' e.1 = touch e.1) (hl : ∀ e ∈ rest, latest' e.1 = latest e.1) :
    Recent rest touch' latest' := by
  refine ⟨(h.sorted.sublist hs).imp_of_mem fun ha hb hab => ?_, fun e he => ?_⟩
  · rw [ht _ ha, ht _ hb]
    exact hab
  · rw [hl e he]
    exact h.latest_eq e (hs.subset he)

omit [DecidableEq K] in
/-- Putting `k` first, after entries that do not hold it, with a time above theirs. -/
theorem Recent.promote {k : K} {v : V} (h : Recent es touch latest) (hs : rest.Sublist es)
    (hk : ∀ e ∈ rest, e.1 ≠ k) (ht : ∀ k', k' ≠ k → touch' k' = touch k')
    (hl : ∀ k', k' ≠ k → latest' k' = latest k') (htop : ∀ e ∈ rest, touch e.1 < touch' k)
    (hv : latest' k = some v) : Recent ((k, v) :: rest) touch' latest' := by
  have hrest := h.sublist hs (fun e he => ht e.1 (hk e he)) (fun e he => hl e.1 (hk e he))
  refine ⟨List.pairwise_cons.mpr ⟨fun b hb => ?_, hrest.sorted⟩, ?_⟩
  · rw [ht b.1 (hk b hb)]
    exact htop b hb
  · intro e he
    rcases List.mem_cons.mp he with rfl | he
    · exact hv
    · exact hrest.latest_eq e he

end Recent

theorem keys_ne_of_lookup_none {k : K} {es : List (K × V)} (h : es.lookup k = none) :
    ∀ e ∈ es, e.1 ≠ k := fun _ he hek =>
  lookup_eq_none_iff_not_mem.mp h (hek ▸ List.mem_map_of_mem he)

theorem keys_ne_without (k : K) (es : List (K × V)) : ∀ e ∈ without k es, e.1 ≠ k := by
  simp [without]

/-- The recency invariant after `hist`: entries in decreasing `lastTouch` order, each with the
value of its key's last `Put`. -/
def RecentAfter (m : RecencyMap K V) (hist : List (LruCall K V)) : Prop :=
  Recent m.entries (fun k => lastTouch m.fifo k hist) (fun k => lastPut k hist)

section Step

variable {m : RecencyMap K V} {hist : List (LruCall K V)}

/-- A key put or read first, in front of entries not holding it. -/
theorem recentAfter_promote (hr : m.RecentAfter hist) {op : LruCall K V} {k : K} {v : V}
    {rest : List (K × V)} (hs : rest.Sublist m.entries) (hk : ∀ e ∈ rest, e.1 ≠ k)
    (htouch : touches m.fifo k op = true) (hother : ∀ k', k' ≠ k → touches m.fifo k' op = false)
    (hl : ∀ k', k' ≠ k → lastPut k' (hist ++ [op]) = lastPut k' hist)
    (hv : lastPut k (hist ++ [op]) = some v) :
    Recent ((k, v) :: rest) (fun k => lastTouch m.fifo k (hist ++ [op]))
      (fun k => lastPut k (hist ++ [op])) := by
  refine hr.promote hs hk (fun k' hk' => lastTouch_append_of_not_touches (hother k' hk')) hl
    (fun e _ => ?_) hv
  have : lastTouch m.fifo e.1 hist ≤ hist.length := lastTouch_le_length
  simp only [lastTouch_append, htouch, if_true]
  omega

/-- **One step.** Every call keeps the recency invariant, with the call appended to the
history. -/
theorem step_recentAfter (hb : m.Bounded) (hr : m.RecentAfter hist) (op : LruCall K V) :
    (m.step op).2.RecentAfter (hist ++ [op]) := by
  obtain ⟨hnd, -⟩ := hb
  unfold RecentAfter
  rw [step_fifo]
  cases op with
  | put k v =>
    have hput : ∀ k', k' ≠ k → lastPut k' (hist ++ [.put k v]) = lastPut k' hist := by
      intro k' hk'
      simp [lastPut_append, putValue, Ne.symm hk']
    have hv : lastPut k (hist ++ [.put k v]) = some v := by simp [lastPut_append, putValue]
    have hother : ∀ k', k' ≠ k → touches m.fifo k' (.put k v : LruCall K V) = false := by
      intro k' hk'
      simp [touches, Ne.symm hk']
    have htouch : touches m.fifo k (.put k v : LruCall K V) = true := by simp [touches]
    simp only [step]
    split_ifs with hk hfull
    · -- a known key moves first with its new value
      exact recentAfter_promote hr List.filter_sublist (keys_ne_without k _) htouch hother hput hv
    · -- a new key into a full cache: the last entry is dropped
      have hnone : m.entries.lookup k = none := Option.not_isSome_iff_eq_none.mp hk
      exact recentAfter_promote hr (List.dropLast_sublist _)
        (fun e he => keys_ne_of_lookup_none hnone e (List.dropLast_subset _ he)) htouch hother
        hput hv
    · have hnone : m.entries.lookup k = none := Option.not_isSome_iff_eq_none.mp hk
      exact recentAfter_promote hr (List.Sublist.refl _) (keys_ne_of_lookup_none hnone) htouch
        hother hput hv
  | get k =>
    have hput : ∀ k', lastPut k' (hist ++ [.get k]) = lastPut k' hist := by
      intro k'
      simp [lastPut_append, putValue]
    have hother : ∀ k', k' ≠ k → touches m.fifo k' (.get k : LruCall K V) = false := by
      intro k' hk'
      simp [touches, Ne.symm hk']
    simp only [step]
    split
    · -- an absent key: nothing moves, and no entry holds `k`
      rename_i hnone
      exact hr.sublist (List.Sublist.refl _)
        (fun e he => lastTouch_append_of_not_touches (hother e.1 (keys_ne_of_lookup_none hnone e he)))
        (fun e _ => hput e.1)
    · rename_i v hv
      split
      · -- `fifo`: a read touches nothing
        rename_i hf
        exact hr.sublist (List.Sublist.refl _)
          (fun e _ => lastTouch_append_of_not_touches (by simp [touches, hf]))
          (fun e _ => hput e.1)
      · rename_i hf
        have htouch : touches m.fifo k (.get k : LruCall K V) = true := by simp [touches, hf]
        exact recentAfter_promote hr List.filter_sublist (keys_ne_without k _) htouch hother
          (fun k' _ => hput k') (by rw [hput]; exact hr.latest_eq _ (mem_of_lookup hv))
  | del k =>
    exact hr.sublist List.filter_sublist
      (fun e _ => lastTouch_append_of_not_touches rfl)
      (fun e _ => by simp [lastPut_append, putValue])
  | existsKey k =>
    exact hr.sublist (List.Sublist.refl _)
      (fun e _ => lastTouch_append_of_not_touches rfl)
      (fun e _ => by simp [lastPut_append, putValue])
  | clear => exact recent_nil
  | count =>
    exact hr.sublist (List.Sublist.refl _)
      (fun e _ => lastTouch_append_of_not_touches rfl)
      (fun e _ => by simp [lastPut_append, putValue])

end Step

/-- **Every run.** From the empty cache with `max ≥ 1`, the entries are in strictly
decreasing order of their keys' last touch, each holds the value of its key's last `Put`,
and the keys are distinct and at most `max`. -/
theorem run_recent {max : Nat} (hmax : 1 ≤ max) (fifo : Bool) (ops : List (LruCall K V)) :
    (machine.run (empty max fifo) ops).2.RecentAfter ops ∧
      (machine.run (empty max fifo) ops).2.Bounded := by
  have hstep : ∀ (m : RecencyMap K V) hist op, (m.RecentAfter hist ∧ m.Bounded ∧ m.max = max) →
      ((m.step op).2.RecentAfter (hist ++ [op]) ∧ (m.step op).2.Bounded ∧
        (m.step op).2.max = max) := by
    rintro m hist op ⟨hr, hb, hm⟩
    exact ⟨step_recentAfter hb hr op, step_bounded (hm ▸ hmax) hb op, by rw [step_max, hm]⟩
  have := machine.run_history (P := fun m hist => m.RecentAfter hist ∧ m.Bounded ∧ m.max = max)
    hstep (empty max fifo) [] ops ⟨recent_nil, ⟨List.nodup_nil, Nat.zero_le _⟩, rfl⟩
  simp only [List.nil_append] at this
  exact ⟨this.1, this.2.1⟩

end RecencyMap

end GoMetadium.Common
