import GoMetadium.P2p.Table
import GoMetadium.Lib.Search

/-!
# The nodes closest to a target

`Table.closest`, the answer to a `findnode` request and the start of every lookup: it walks
every entry of the table (only those checked live, with `checklive`) and pushes each into a
`nodesByDistance` list that keeps at most `nresults` nodes in order of distance to the target,
placing a node with `sort.Search` before the first one strictly farther and dropping the
farthest when the list is full.

`push_entries` reads one push as insertion into the sorted list followed by truncation, so that
by the bisection and insertion library (`Bisect`) a run of pushes keeps `nearest`, the
truncation of a sorted permutation of the nodes pushed (`nearest_spec`, `push_nearest`). For
`closest` (`closest_entries`) this says that it returns exactly the `nresults` nearest live
entries, nearest first, and in every run of the table no node appears twice in it
(`closest_nearest`); the lookups, which push the nodes of their replies one at a time, rest on
the same two lemmas.
-/

set_option autoImplicit false

namespace GoMetadium.P2p

/-- `nodesByDistance`: nodes ordered by distance to `target`. -/
structure NodesByDistance where
  entries : List Node
  target : ID

/-- `push`: `n` before the first entry strictly farther than it, the list kept below
`maxElems`. -/
def NodesByDistance.push (h : NodesByDistance) (n : Node) (maxElems : Nat) : NodesByDistance :=
  let ix := Bisect.search h.entries.length fun i =>
    h.entries[i]?.any fun e => decide (0 < distCmp h.target e.id n.id)
  let entries := if h.entries.length < maxElems then h.entries ++ [n] else h.entries
  if ix = entries.length then { h with entries := entries }
  else
    -- `copy(h.entries[ix+1:], h.entries[ix:]); h.entries[ix] = n`
    { h with entries := (entries.take ix ++ n :: entries.drop ix).take entries.length }

/-- `closest(target, nresults, checklive)`. -/
def closest (t : Table) (target : ID) (nresults : Nat) (checklive : Bool) : NodesByDistance :=
  (allEntries t).foldl
    (fun close n => if checklive && n.livenessChecks == 0 then close else close.push n nresults)
    ⟨[], target⟩

/-! ## One push -/

/-- A node's distance to the target, the key of the order. -/
abbrev distKey (target : ID) (n : Node) : Nat := distance target n.id

/-- What the two branches of `push` leave, for an insertion point `ix` in a list no longer than
the bound: the insertion, truncated to the bound. -/
theorem insertAt_take (l : List Node) (n : Node) (ix m : Nat) (hix : ix ≤ l.length)
    (hm : l.length ≤ m) :
    (if ix = (if l.length < m then l ++ [n] else l).length
      then (if l.length < m then l ++ [n] else l)
      else ((if l.length < m then l ++ [n] else l).take ix ++
          n :: (if l.length < m then l ++ [n] else l).drop ix).take
        (if l.length < m then l ++ [n] else l).length) =
      (l.take ix ++ n :: l.drop ix).take m := by
  by_cases hlt : l.length < m
  · -- room left: the appended copy of `n` is overwritten by the shift
    simp only [hlt, if_true, List.length_append, List.length_singleton]
    have hlen : (l.take ix ++ n :: l.drop ix).length = l.length + 1 := by simp; omega
    have hL : ((l ++ [n]).take ix ++ n :: (l ++ [n]).drop ix).take (l.length + 1) =
        l.take ix ++ n :: l.drop ix := by
      rw [List.take_append_of_le_length hix, List.drop_append_of_le_length hix,
        show l.take ix ++ n :: (l.drop ix ++ [n]) = (l.take ix ++ n :: l.drop ix) ++ [n] by simp]
      exact List.take_left' hlen
    have hR : (l.take ix ++ n :: l.drop ix).take m = l.take ix ++ n :: l.drop ix :=
      List.take_of_length_le (by rw [hlen]; omega)
    rw [if_neg (by omega), hL, hR]
  · -- full: the farthest node is dropped
    have hml : l.length = m := le_antisymm hm (Nat.le_of_not_lt hlt)
    simp only [hlt, if_false]
    split
    · next hix' =>
      subst hix'
      simp [hml]
    · rw [hml]

/-- **One push is an insertion into the sorted list, then truncation.** -/
theorem push_entries (h : NodesByDistance) (n : Node) (maxElems : Nat)
    (hsorted : h.entries.Pairwise (fun a b => distKey h.target a ≤ distKey h.target b))
    (hlen : h.entries.length ≤ maxElems) :
    (h.push n maxElems).entries =
      (h.entries.orderedInsert (fun a b => distKey h.target a < distKey h.target b) n).take
        maxElems := by
  -- the predicate `sort.Search` bisects: the entry is farther than `n`
  have hf : ∀ i : Nat,
      (h.entries[i]?.any fun (e : Node) => decide (0 < distCmp h.target e.id n.id)) =
      (h.entries[i]?.any fun (e : Node) => decide (distKey h.target n < distKey h.target e)) := by
    intro i
    cases h.entries[i]? <;> simp [distCmp_pos_iff]
  have hmono : Bisect.MonotoneOn (fun i : Nat => h.entries[i]?.any fun (e : Node) =>
      decide (0 < distCmp h.target e.id n.id)) h.entries.length := by
    intro a b hab hb hfa
    dsimp only at hfa ⊢
    rw [hf] at hfa ⊢
    have ha : a < h.entries.length := lt_of_le_of_lt hab hb
    rw [List.getElem?_eq_getElem ha] at hfa
    rw [List.getElem?_eq_getElem hb]
    simp only [Option.any_some, decide_eq_true_eq] at hfa ⊢
    rcases Nat.lt_or_eq_of_le hab with hab | rfl
    · exact lt_of_lt_of_le hfa (List.pairwise_iff_getElem.mp hsorted a b ha hb hab)
    · exact hfa
  obtain ⟨hle, hbelow, habove⟩ := Bisect.search_spec hmono
  rw [Bisect.orderedInsert_eq_of_first _ n h.entries _ hle, ← insertAt_take h.entries n _ maxElems
    hle hlen]
  · unfold NodesByDistance.push
    dsimp only
    rw [apply_ite NodesByDistance.entries]
  · -- before the insertion point every entry is at most as far as `n`
    intro k x hk hx
    have := hbelow k hk
    rw [hf, hx] at this
    simpa using this
  · -- at the insertion point the entry is farther
    intro x hx
    have hlt : Bisect.search h.entries.length _ < h.entries.length :=
      (List.getElem?_eq_some_iff.mp hx).1
    have := habove _ le_rfl hlt
    rw [hf, hx] at this
    simpa using this

/-! ## The nearest nodes of a list -/

/-- The `k` nodes of `xs` nearest to `target`, as pushing them in order into an empty
`nodesByDistance` of bound `k` leaves them. -/
def nearest (target : ID) (k : Nat) (xs : List Node) : List Node :=
  xs.foldl (fun l x => (l.orderedInsert (fun a b => distKey target a < distKey target b) x).take k)
    []

theorem nearest_append_singleton (target : ID) (k : Nat) (xs : List Node) (x : Node) :
    nearest target k (xs ++ [x]) =
      ((nearest target k xs).orderedInsert (fun a b => distKey target a < distKey target b) x).take
        k := by
  simp only [nearest, List.foldl_append, List.foldl_cons, List.foldl_nil]

/-- **The nearest nodes are the first `k` of an ordering by distance.** -/
theorem nearest_spec (target : ID) (k : Nat) (xs : List Node) :
    ∃ L : List Node, L.Perm xs ∧
      L.Pairwise (fun a b => distance target a.id ≤ distance target b.id) ∧
      nearest target k xs = L.take k := by
  refine ⟨xs.foldl (fun l x => l.orderedInsert (fun a b => distKey target a < distKey target b) x)
    [], ?_, ?_, ?_⟩
  · simpa using
      Bisect.foldl_orderedInsert_perm (fun a b => distKey target a < distKey target b) xs []
  · exact Bisect.foldl_orderedInsert_pairwise (distKey target) xs [] List.Pairwise.nil
  · -- the bounded insertions are the truncation of the plain ones
    have h :=
      Bisect.foldl_take_orderedInsert (fun a b => distKey target a < distKey target b) k xs []
    rw [List.take_nil] at h
    exact h

theorem nearest_sorted (target : ID) (k : Nat) (xs : List Node) :
    (nearest target k xs).Pairwise (fun a b => distKey target a ≤ distKey target b) := by
  obtain ⟨L, _, hsorted, h⟩ := nearest_spec target k xs
  rw [h]
  exact hsorted.take

theorem nearest_length_le (target : ID) (k : Nat) (xs : List Node) :
    (nearest target k xs).length ≤ k := by
  obtain ⟨L, _, _, h⟩ := nearest_spec target k xs
  rw [h]
  exact List.length_take_le _ _

theorem mem_of_mem_nearest {target : ID} {k : Nat} {xs : List Node} {x : Node}
    (hx : x ∈ nearest target k xs) : x ∈ xs := by
  obtain ⟨L, hperm, _, h⟩ := nearest_spec target k xs
  rw [h] at hx
  exact hperm.subset (List.mem_of_mem_take hx)

/-- A push into the nearest nodes of a list gives the nearest nodes of the list extended. -/
theorem push_nearest (h : NodesByDistance) (xs : List Node) (n : Node) (k : Nat)
    (he : h.entries = nearest h.target k xs) :
    (h.push n k).entries = nearest h.target k (xs ++ [n]) := by
  have hsorted := nearest_sorted h.target k xs
  have hlen := nearest_length_le h.target k xs
  rw [← he] at hsorted hlen
  rw [push_entries h n k hsorted hlen, he, nearest_append_singleton]

/-! ## The walk -/

theorem push_target (h : NodesByDistance) (n : Node) (maxElems : Nat) :
    (h.push n maxElems).target = h.target := by
  unfold NodesByDistance.push
  dsimp only
  rw [apply_ite NodesByDistance.target]
  exact ite_self _

/-- The walk over a list, from a sorted list within the bound, is the bounded insertion of its
live nodes. -/
theorem foldl_push (target : ID) (nresults : Nat) (checklive : Bool) :
    ∀ (xs : List Node) (c : NodesByDistance), c.target = target →
      c.entries.Pairwise (fun a b => distKey target a ≤ distKey target b) →
      c.entries.length ≤ nresults →
      (xs.foldl (fun (close : NodesByDistance) (n : Node) =>
          if checklive && n.livenessChecks == 0 then close else close.push n nresults) c).entries =
        (xs.filter fun (n : Node) => !(checklive && n.livenessChecks == 0)).foldl
          (fun (l : List Node) x => (l.orderedInsert
            (fun a b => distKey target a < distKey target b) x).take nresults) c.entries
  | [], _, _, _, _ => rfl
  | x :: xs, c, htarget, hsorted, hlen => by
    by_cases hskip : (checklive && x.livenessChecks == 0) = true
    · rw [List.foldl_cons, if_pos hskip, List.filter_cons_of_neg (by simp [hskip])]
      exact foldl_push target nresults checklive xs c htarget hsorted hlen
    · -- a live node: one push, which is one bounded insertion
      have hlive : (!(checklive && x.livenessChecks == 0)) = true := by
        rw [Bool.not_eq_true']
        exact Bool.eq_false_iff.mpr hskip
      rw [List.foldl_cons, if_neg hskip,
        List.filter_cons_of_pos (p := fun n : Node => !(checklive && n.livenessChecks == 0)) hlive,
        List.foldl_cons]
      have hpush := push_entries c x nresults (htarget ▸ hsorted) hlen
      rw [htarget] at hpush
      have hsorted' := (Bisect.Pairwise.orderedInsert_lt (distKey target) x c.entries
        hsorted).take (i := nresults)
      rw [← hpush] at hsorted' ⊢
      exact foldl_push target nresults checklive xs _ ((push_target c x nresults).trans htarget)
        hsorted' (hpush ▸ List.length_take_le _ _)

/-- `closest` keeps the nearest of the entries it walks. -/
theorem closest_eq_nearest (t : Table) (target : ID) (nresults : Nat) (checklive : Bool) :
    (closest t target nresults checklive).entries =
      nearest target nresults
        ((allEntries t).filter fun n => !(checklive && n.livenessChecks == 0)) :=
  foldl_push target nresults checklive _ ⟨[], target⟩ rfl List.Pairwise.nil (Nat.zero_le _)

/-- **`closest` is the truncation of a sorted permutation of the live entries.** -/
theorem closest_entries (t : Table) (target : ID) (nresults : Nat) (checklive : Bool) :
    ∃ L : List Node,
      L.Perm ((allEntries t).filter fun n => !(checklive && n.livenessChecks == 0)) ∧
      L.Pairwise (fun a b => distance target a.id ≤ distance target b.id) ∧
      (closest t target nresults checklive).entries = L.take nresults := by
  rw [closest_eq_nearest]
  exact nearest_spec target nresults _

/-- **`closest` returns the nearest live entries, nearest first, none twice.** In every run of the
table, what `closest(target, nresults, checklive)` returns is the first `nresults` of an ordering
by XOR distance to `target` of the entries it walks (all of them, or those checked live), and
their IDs are pairwise distinct. -/
theorem closest_nearest (selfId : ID) (seeds : List Node) (events : List Event) (target : ID)
    (nresults : Nat) (checklive : Bool) :
    ∃ L : List Node, L.Perm ((allEntries (run selfId seeds events).table).filter
        fun n => !(checklive && n.livenessChecks == 0)) ∧
      L.Pairwise (fun a b => distance target a.id ≤ distance target b.id) ∧
      (L.map (·.id)).Nodup ∧
      (closest (run selfId seeds events).table target nresults checklive).entries =
        L.take nresults := by
  obtain ⟨L, hperm, hsorted, hclosest⟩ :=
    closest_entries (run selfId seeds events).table target nresults checklive
  refine ⟨L, hperm, hsorted, ?_, hclosest⟩
  have hnd := (run_tableInv selfId seeds events).nodup_allEntries
  exact (hperm.map _).nodup_iff.mpr (hnd.sublist (List.filter_sublist.map _))

end GoMetadium.P2p
