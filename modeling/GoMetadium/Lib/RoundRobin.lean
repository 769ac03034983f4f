import Mathlib

set_option autoImplicit false

/-! # Merging lists by rounds

Round `r` of a list of lists takes the `r`-th element of every list that has one, in the order
of the lists; the merge by rounds (`roundRobin`) is the concatenation of the rounds. A queue of
lists that emits the head of its front list and sends the rest of that list to the back,
dropping a list once it is empty, emits the same sequence (`serve_eq_roundRobin`): this is how
a cursor that walks a circular list of lists takes one element at each stop.

What the merge keeps:
* it is a permutation of the concatenation (`roundRobin_perm`);
* where every list holds the elements of its own key and the keys are distinct (`Keyed`), the
  elements of one key come out as that key's list (`filter_roundRobin`);
* between two consecutive elements of one list stands at most one element of every key
  (`roundRobin_between`);
* in a list without repeats, what a sublist has between two of its elements lies between
  them in the list (`Sublist.middle`), so the last fact passes to every sublist.
-/

namespace RoundRobin

variable {α : Type}

/-! ## Rounds -/

/-- The longest length among the lists. -/
def maxLen (ls : List (List α)) : Nat := (ls.map List.length).foldr max 0

/-- Round `r`: the `r`-th element of every list that has one, in order. -/
def round (ls : List (List α)) (r : Nat) : List α := ls.filterMap (·[r]?)

/-- The merge of the lists by rounds. -/
def roundRobin (ls : List (List α)) : List α := (List.range (maxLen ls)).flatMap (round ls)

/-- What remains of the lists after round `0`: the tails of those that are not empty. -/
def tails (ls : List (List α)) : List (List α) := ls.filterMap List.tail?

@[simp] theorem maxLen_nil : maxLen ([] : List (List α)) = 0 := rfl

@[simp] theorem maxLen_cons (l : List α) (ls : List (List α)) :
    maxLen (l :: ls) = max l.length (maxLen ls) := rfl

@[simp] theorem tails_nil : tails ([] : List (List α)) = [] := rfl

@[simp] theorem tails_cons_nil (ls : List (List α)) : tails ([] :: ls) = tails ls := rfl

@[simp] theorem tails_cons_cons (x : α) (xs : List α) (ls : List (List α)) :
    tails ((x :: xs) :: ls) = xs :: tails ls := rfl

theorem length_le_maxLen {ls : List (List α)} {l : List α} (h : l ∈ ls) :
    l.length ≤ maxLen ls := by
  induction ls with
  | nil => cases h
  | cons k ls ih =>
    rw [maxLen_cons]
    rcases List.mem_cons.mp h with rfl | h
    · exact le_max_left _ _
    · exact (ih h).trans (le_max_right _ _)

theorem maxLen_tails (ls : List (List α)) : maxLen (tails ls) = maxLen ls - 1 := by
  induction ls with
  | nil => rfl
  | cons l ls ih =>
    cases l with
    | nil => simp [ih]
    | cons x xs => simp only [tails_cons_cons, maxLen_cons, ih, List.length_cons]; omega

theorem eq_nil_of_maxLen_eq_zero {ls : List (List α)} (h : maxLen ls = 0) {l : List α}
    (hl : l ∈ ls) : l = [] :=
  List.eq_nil_of_length_eq_zero (Nat.le_zero.mp (h ▸ length_le_maxLen hl))

theorem tails_eq_nil {ls : List (List α)} (h : maxLen ls = 0) : tails ls = [] :=
  List.filterMap_eq_nil_iff.mpr fun l hl => by simp [eq_nil_of_maxLen_eq_zero h hl]

theorem round_zero (ls : List (List α)) : round ls 0 = ls.filterMap List.head? := by
  simp only [round]
  congr 1
  funext l
  cases l <;> rfl

theorem round_succ (ls : List (List α)) (r : Nat) : round ls (r + 1) = round (tails ls) r := by
  simp only [round, tails, List.filterMap_filterMap]
  congr 1
  funext l
  cases l <;> rfl

/-- The merge is round `0` followed by the merge of what remains. -/
theorem roundRobin_eq (ls : List (List α)) :
    roundRobin ls = round ls 0 ++ roundRobin (tails ls) := by
  unfold roundRobin
  rw [maxLen_tails]
  rcases h : maxLen ls with _ | n
  · -- every list is empty, and so is round `0`
    have hnil : round ls 0 = [] :=
      List.filterMap_eq_nil_iff.mpr fun l hl => by simp [eq_nil_of_maxLen_eq_zero h hl]
    simp [hnil]
  · rw [List.range_succ_eq_map, List.flatMap_cons, List.flatMap_map]
    simp [round_succ]

@[simp] theorem roundRobin_nil : roundRobin ([] : List (List α)) = [] := rfl

/-! ## The queue that serves its front list -/

/-- A queue of lists served from the front: the front list gives its head and goes to the back
with the rest, an empty front list is dropped. -/
def serve : List (List α) → List α
  | [] => []
  | [] :: q => serve q
  | (x :: xs) :: q => x :: serve (q ++ [xs])
termination_by q => (q.map List.length).sum + q.length
decreasing_by
  all_goals simp
  omega

@[simp] theorem serve_nil : serve ([] : List (List α)) = [] := by simp [serve]

@[simp] theorem serve_cons_nil (q : List (List α)) : serve ([] :: q) = serve q := by
  simp [serve]

@[simp] theorem serve_cons_cons (x : α) (xs : List α) (q : List (List α)) :
    serve ((x :: xs) :: q) = x :: serve (q ++ [xs]) := by
  simp [serve]

/-- Serving the lists `ls` in front of `acc` gives their heads, and leaves `acc` followed by
their tails. -/
theorem serve_append (ls acc : List (List α)) :
    serve (ls ++ acc) = ls.filterMap List.head? ++ serve (acc ++ tails ls) := by
  induction ls generalizing acc with
  | nil => simp
  | cons l ls ih =>
    cases l with
    | nil => simp [ih, List.filterMap_cons]
    | cons x xs =>
      rw [List.cons_append, serve_cons_cons, List.append_assoc, ih]
      simp

theorem serve_eq (ls : List (List α)) : serve ls = round ls 0 ++ serve (tails ls) := by
  simpa [round_zero] using serve_append ls []

/-- **The queue emits the merge by rounds.** -/
theorem serve_eq_roundRobin (ls : List (List α)) : serve ls = roundRobin ls := by
  -- induction on the number of rounds
  suffices ∀ n, ∀ ls : List (List α), maxLen ls ≤ n → serve ls = roundRobin ls from
    this _ ls le_rfl
  intro n
  induction n with
  | zero =>
    intro ls h
    rw [serve_eq, roundRobin_eq, tails_eq_nil (Nat.le_zero.mp h), serve_nil, roundRobin_nil]
  | succ n ih =>
    intro ls h
    rw [serve_eq, roundRobin_eq, ih (tails ls) (by rw [maxLen_tails]; omega)]

theorem serve_perm (q : List (List α)) : (serve q).Perm q.flatten := by
  induction q using serve.induct with
  | case1 => simp
  | case2 q ih => simpa using ih
  | case3 x xs q ih =>
    rw [serve_cons_cons, List.flatten_cons, List.cons_append]
    refine List.Perm.cons x (ih.trans ?_)
    simpa using List.perm_append_comm

theorem roundRobin_perm (ls : List (List α)) : (roundRobin ls).Perm ls.flatten :=
  serve_eq_roundRobin ls ▸ serve_perm ls

theorem length_roundRobin (ls : List (List α)) :
    (roundRobin ls).length = (ls.map List.length).sum := by
  rw [(roundRobin_perm ls).length_eq, List.length_flatten]

/-! ## Keys -/

/-- The rounds of one list give that list back. -/
theorem flatMap_range_getElem? (l : List α) (n : Nat) :
    (List.range n).flatMap (fun r => l[r]?.toList) = l.take n := by
  induction n with
  | zero => simp
  | succ n ih => rw [List.range_succ, List.flatMap_append, ih, List.take_add_one]; simp

section Keys

variable {β : Type} (key : α → β)

/-- Lists tagged with keys: every list holds elements of its own key, and the keys are
distinct. -/
structure Keyed (ps : List (β × List α)) : Prop where
  key_eq : ∀ p ∈ ps, ∀ x ∈ p.2, key x = p.1
  nodup : (ps.map Prod.fst).Nodup

variable {key}

theorem Keyed.sublist {ps qs : List (β × List α)} (h : Keyed key ps) (hqs : qs.Sublist ps) :
    Keyed key qs :=
  ⟨fun p hp => h.key_eq p (hqs.subset hp), h.nodup.sublist (hqs.map Prod.fst)⟩

variable [DecidableEq β]

/-- The elements of key `b` in a round are the round of the lists of key `b`. -/
theorem filter_round {ps : List (β × List α)} (h : ∀ p ∈ ps, ∀ x ∈ p.2, key x = p.1)
    (b : β) (r : Nat) :
    (round (ps.map Prod.snd) r).filter (key · = b) =
      round ((ps.filter (·.1 = b)).map Prod.snd) r := by
  induction ps with
  | nil => rfl
  | cons p ps ih =>
    have ih := ih fun q hq => h q (List.mem_cons_of_mem p hq)
    have hp : ∀ x ∈ p.2, key x = p.1 := h p List.mem_cons_self
    by_cases hb : p.1 = b
    · -- the head list has key b: its element stays
      rcases hx : p.2[r]? with _ | x
      · simp_all [round]
      · have : key x = b := hb ▸ hp x (List.mem_of_getElem? hx)
        simp_all [round]
    · -- the head list has another key: its element goes
      rcases hx : p.2[r]? with _ | x
      · simp_all [round]
      · have : key x ≠ b := fun h' => hb (hp x (List.mem_of_getElem? hx) ▸ h')
        simp_all [round]

theorem filter_fst_eq_singleton {ps : List (β × List α)} (hnd : (ps.map Prod.fst).Nodup)
    {b : β} {L : List α} (hb : (b, L) ∈ ps) : ps.filter (·.1 = b) = [(b, L)] := by
  induction ps with
  | nil => cases hb
  | cons p ps ih =>
    rw [List.map_cons, List.nodup_cons] at hnd
    rcases List.mem_cons.mp hb with rfl | hb
    · -- no other list has key b
      have : ps.filter (·.1 = b) = [] :=
        List.filter_eq_nil_iff.mpr fun q hq hqb =>
          hnd.1 (List.mem_map.mpr ⟨q, hq, by simpa using hqb⟩)
      simp [this]
    · have hpb : p.1 ≠ b := fun h => hnd.1 (h ▸ List.mem_map.mpr ⟨_, hb, rfl⟩)
      simp [hpb, ih hnd.2 hb]

theorem length_filter_fst_le_one {ps : List (β × List α)} (hnd : (ps.map Prod.fst).Nodup)
    (b : β) : (ps.filter (·.1 = b)).length ≤ 1 := by
  have hsub : ((ps.filter (·.1 = b)).map Prod.fst).Nodup :=
    hnd.sublist ((List.filter_sublist).map Prod.fst)
  have hrep : (ps.filter (·.1 = b)).map Prod.fst =
      List.replicate (ps.filter (·.1 = b)).length b :=
    List.eq_replicate_iff.mpr ⟨by simp, by simp⟩
  rw [hrep, List.nodup_replicate] at hsub
  exact hsub

/-- **Each key's elements come out as its list.** -/
theorem filter_roundRobin {ps : List (β × List α)} (h : Keyed key ps) {b : β} {L : List α}
    (hb : (b, L) ∈ ps) : (roundRobin (ps.map Prod.snd)).filter (key · = b) = L := by
  have hL : L ∈ ps.map Prod.snd := List.mem_map.mpr ⟨_, hb, rfl⟩
  have hround : ∀ r, (round (ps.map Prod.snd) r).filter (key · = b) = L[r]?.toList := by
    intro r
    rw [filter_round h.key_eq, filter_fst_eq_singleton h.nodup hb]
    simp only [round, List.map_cons, List.map_nil, List.filterMap_cons, List.filterMap_nil]
    cases L[r]? <;> rfl
  rw [roundRobin, List.filter_flatMap]
  simp only [hround]
  rw [flatMap_range_getElem?, List.take_of_length_le (length_le_maxLen hL)]

/-- Round `r` around the list at position `i`. -/
theorem round_split {ls : List (List α)} {i r : Nat} {L : List α} (hi : ls[i]? = some L)
    {x : α} (hx : L[r]? = some x) :
    round ls r = round (ls.take i) r ++ x :: round (ls.drop (i + 1)) r := by
  obtain ⟨hlt, rfl⟩ := List.getElem?_eq_some_iff.mp hi
  have hls : ls = ls.take i ++ ls[i] :: ls.drop (i + 1) := by
    rw [← List.drop_eq_getElem_cons hlt, List.take_append_drop]
  conv_lhs => rw [round, hls]
  rw [List.filterMap_append, List.filterMap_cons, hx]
  rfl

theorem range_split {r n : Nat} (h : r + 2 ≤ n) :
    List.range n = List.range r ++ [r, r + 1] ++ (List.range (n - (r + 2))).map (r + 2 + ·) := by
  conv_lhs => rw [show n = r + 2 + (n - (r + 2)) by omega]
  rw [List.range_add, List.range_succ, List.range_succ]
  simp

/-- **Two consecutive elements of one list in the merge.** Between `L[r]` and `L[r+1]` stand
the round-`r` elements of the lists after `L` and the round-`r+1` elements of those before it. -/
theorem roundRobin_split {ls : List (List α)} {i r : Nat} {L : List α} (hi : ls[i]? = some L)
    (hr : r + 1 < L.length) :
    ∃ P Q, roundRobin ls = P ++ L[r] :: (round (ls.drop (i + 1)) r ++
      round (ls.take i) (r + 1)) ++ L[r + 1] :: Q := by
  have hL : L.length ≤ maxLen ls := length_le_maxLen (List.mem_of_getElem? hi)
  refine ⟨(List.range r).flatMap (round ls) ++ round (ls.take i) r,
    round (ls.drop (i + 1)) (r + 1) ++
      ((List.range (maxLen ls - (r + 2))).map (r + 2 + ·)).flatMap (round ls), ?_⟩
  rw [roundRobin, range_split (show r + 2 ≤ maxLen ls by omega), List.flatMap_append, List.flatMap_append,
    List.flatMap_cons, List.flatMap_cons, List.flatMap_nil, List.append_nil,
    round_split hi (List.getElem?_eq_getElem (show r < L.length by omega)),
    round_split hi (List.getElem?_eq_getElem hr)]
  simp

/-- **Fairness of the merge.** Between two consecutive elements of one list stands at most
one element of every key. -/
theorem roundRobin_between {ps : List (β × List α)} (h : Keyed key ps) {i r : Nat}
    {L : List α} (hi : (ps.map Prod.snd)[i]? = some L) (hr : r + 1 < L.length) :
    ∃ P M Q, roundRobin (ps.map Prod.snd) = P ++ L[r] :: M ++ L[r + 1] :: Q ∧
      ∀ b, (M.filter (key · = b)).length ≤ 1 := by
  obtain ⟨P, Q, hsplit⟩ := roundRobin_split hi hr
  refine ⟨P, _, Q, hsplit, fun b => ?_⟩
  -- the lists of key b after position i and before it are among the lists of ps but the i-th
  have hrest : (ps.take i ++ ps.drop (i + 1)).Sublist ps := by
    rw [← List.eraseIdx_eq_take_drop_succ]
    exact List.eraseIdx_sublist ps i
  have hdrop := filter_round (h.sublist (List.drop_sublist (i + 1) ps)).key_eq b r
  have htake := filter_round (h.sublist (List.take_sublist i ps)).key_eq b (r + 1)
  rw [← List.map_drop, ← List.map_take] at *
  calc ((round ((ps.drop (i + 1)).map Prod.snd) r ++
          round ((ps.take i).map Prod.snd) (r + 1)).filter (key · = b)).length
      = (round (((ps.drop (i + 1)).filter (·.1 = b)).map Prod.snd) r ++
          round (((ps.take i).filter (·.1 = b)).map Prod.snd) (r + 1)).length := by
        rw [List.filter_append, hdrop, htake]
    _ ≤ ((ps.drop (i + 1)).filter (·.1 = b)).length + ((ps.take i).filter (·.1 = b)).length
      := by
        rw [List.length_append]
        exact Nat.add_le_add ((List.length_filterMap_le _ _).trans (by simp))
          ((List.length_filterMap_le _ _).trans (by simp))
    _ = ((ps.take i ++ ps.drop (i + 1)).filter (·.1 = b)).length := by
        rw [List.filter_append, List.length_append, Nat.add_comm]
    _ ≤ (ps.filter (·.1 = b)).length := (hrest.filter _).length_le
    _ ≤ 1 := length_filter_fst_le_one h.nodup b

end Keys

/-! ## Sublists of a list without repeats -/

/-- What a sublist has between two of its elements lies between them in the list, when the
list has no repeats. -/
theorem Sublist.middle {xs ys a b c A B C : List α} {x y : α} (hsub : xs.Sublist ys)
    (hnd : ys.Nodup) (hx : xs = a ++ x :: b ++ y :: c) (hy : ys = A ++ x :: B ++ y :: C) :
    b.Sublist B := by
  subst hx hy
  have hxA : x ∉ A := fun hm =>
    List.disjoint_of_nodup_append (hnd.sublist (List.sublist_append_left _ _)) hm
      List.mem_cons_self
  have hyC : y ∉ C := (List.nodup_cons.mp (hnd.sublist (List.sublist_append_right _ _))).1
  -- cut the list where the sublist's part up to x ends
  obtain ⟨r₁, r₂, hys, hax, hrest⟩ := List.append_sublist_iff.mp
    (show ((a ++ [x]) ++ (b ++ y :: c)).Sublist (A ++ x :: B ++ y :: C) by simpa using hsub)
  have hxr₁ : x ∈ r₁ := hax.subset (by simp)
  rw [List.append_assoc, List.cons_append] at hys
  obtain ⟨B₁, hr₁, hB⟩ : ∃ B₁, r₁ = A ++ x :: B₁ ∧ B ++ y :: C = B₁ ++ r₂ := by
    rcases List.append_eq_append_iff.mp hys with ⟨a', hr₁, ha'⟩ | ⟨c', hA, -⟩
    · cases a' with
      | nil => exact absurd (by simpa [hr₁] using hxr₁) hxA
      | cons z a' =>
        rw [List.cons_append, List.cons.injEq] at ha'
        exact ⟨a', by rw [hr₁, ← ha'.1], ha'.2⟩
    · exact absurd (hA ▸ List.mem_append_left c' hxr₁) hxA
  -- cut what follows where the sublist's part up to y begins
  obtain ⟨s₁, s₂, hr₂, hbs, hyc⟩ := List.append_sublist_iff.mp hrest
  have hys₂ : y ∈ s₂ := hyc.subset List.mem_cons_self
  rw [hr₂, ← List.append_assoc] at hB
  have hinfix : s₁.IsInfix B := by
    rcases List.append_eq_append_iff.mp hB with ⟨a', hB₁, hyC'⟩ | ⟨c', hB', -⟩
    · cases a' with
      | nil => exact ⟨B₁, [], by simpa using hB₁⟩
      | cons z a' =>
        rw [List.cons_append, List.cons.injEq] at hyC'
        exact absurd (hyC'.2 ▸ List.mem_append_right a' hys₂) hyC
    · exact ⟨B₁, c', by rw [hB']⟩
  exact hbs.trans hinfix.sublist

/-! ## A cursor on a circular list

A cursor at position `p` of a circular list sees the list rotated to start at `p`. Moving it
on puts the element it leaves at the back (`rotation_nextPos`); unlinking the element under it
and moving to its successor drops that element (`rotation_eraseIdx`). -/

/-- The position after `p` on a circular list of length `n`. -/
def nextPos (n p : Nat) : Nat := if p + 1 < n then p + 1 else 0

theorem rotation_eq_cons {l : List α} {p : Nat} (hp : p < l.length) :
    l.drop p ++ l.take p = l[p] :: (l.drop (p + 1) ++ l.take p) := by
  rw [List.drop_eq_getElem_cons hp, List.cons_append]

theorem rotation_nextPos {l : List α} {p : Nat} (hp : p < l.length) :
    l.drop (nextPos l.length p) ++ l.take (nextPos l.length p) =
      l.drop (p + 1) ++ l.take p ++ [l[p]] := by
  unfold nextPos
  split_ifs with h
  · rw [List.take_add_one, List.getElem?_eq_getElem hp, List.append_assoc]
    rfl
  · -- the cursor leaves the last element and goes back to the head
    have hlen : l.length ≤ p + 1 := by omega
    have hl : l.take p ++ [l[p]] = l := by
      have hfull := List.take_of_length_le hlen
      rw [List.take_add_one, List.getElem?_eq_getElem hp, Option.toList_some] at hfull
      exact hfull
    simp [List.drop_of_length_le hlen, hl]

theorem rotation_eraseIdx {l : List α} {p : Nat} (hp : p < l.length) :
    (l.eraseIdx p).drop (if p + 1 < l.length then p else 0) ++
      (l.eraseIdx p).take (if p + 1 < l.length then p else 0) = l.drop (p + 1) ++ l.take p := by
  have htake : (l.take p).length = p := by simp; omega
  rw [List.eraseIdx_eq_take_drop_succ]
  split_ifs with h
  · rw [List.drop_left' htake, List.take_left' htake]
  · -- the last element goes: the cursor returns to the head
    have hdrop : l.drop (p + 1) = [] := List.drop_of_length_le (by omega)
    simp [hdrop]

end RoundRobin
