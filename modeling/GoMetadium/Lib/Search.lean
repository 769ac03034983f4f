import Mathlib

/-!
# Bisection and bounded sorted insertion

Go's `sort.Search` as `search`: on a predicate that is false and then true over `[0, n)`, it
returns the first index where the predicate holds (`search_spec`).

Sorted insertion into a list that keeps at most `m` elements: inserting into the truncated list
and truncating agrees with inserting into the whole list and truncating
(`take_orderedInsert_take`), so a run of bounded insertions is the truncation of a run of plain
ones (`foldl_take_orderedInsert`). Insertion before the first strictly greater key keeps a list
sorted by its keys (`Pairwise.orderedInsert_lt`), and a run of insertions from the empty list is a
sorted permutation of what was inserted.
-/

set_option autoImplicit false

namespace Bisect

/-! ## `sort.Search` -/

/-- The loop of `sort.Search` on the half-open range `[i, j)`: the midpoint `h` moves `i` past it
when the predicate fails there and `j` down to it when it holds. -/
def searchLoop (f : Nat → Bool) (i j : Nat) : Nat :=
  if i < j then
    if !f ((i + j) / 2) then searchLoop f ((i + j) / 2 + 1) j else searchLoop f i ((i + j) / 2)
  else i
termination_by j - i

/-- `sort.Search(n, f)`. -/
def search (n : Nat) (f : Nat → Bool) : Nat := searchLoop f 0 n

example : search 5 (fun k => decide (3 ≤ k)) = 3 := by decide +kernel

/-- `f` is false and then true on `[0, n)`. -/
def MonotoneOn (f : Nat → Bool) (n : Nat) : Prop :=
  ∀ a b, a ≤ b → b < n → f a = true → f b = true

/-- What the loop keeps on `[i, j)`: the predicate fails below `i` and holds from `j` on. -/
structure Bracket (f : Nat → Bool) (n i j : Nat) : Prop where
  le : i ≤ j
  le_n : j ≤ n
  below : ∀ k, k < i → f k = false
  above : ∀ k, j ≤ k → k < n → f k = true

variable {f : Nat → Bool} {n : Nat}

theorem Bracket.start : Bracket f n 0 n :=
  ⟨Nat.zero_le n, le_rfl, fun _ hk => absurd hk (Nat.not_lt_zero _),
    fun _ hnk hkn => absurd hkn (Nat.not_lt.mpr hnk)⟩

theorem searchLoop_spec (hmono : MonotoneOn f n) (i j : Nat) (h : Bracket f n i j) :
    Bracket f n (searchLoop f i j) (searchLoop f i j) := by
  induction i, j using searchLoop.induct f with
  | case1 i j hij hf ih =>
    -- the predicate fails at the midpoint, so it fails below it too
    rw [searchLoop, if_pos hij, if_pos hf]
    apply ih
    refine ⟨by omega, h.le_n, fun k hk => ?_, h.above⟩
    rcases Nat.lt_succ_iff_lt_or_eq.mp hk with hk | rfl
    · by_contra hfk
      have := hmono k ((i + j) / 2) hk.le (by have := h.le_n; omega) (by simpa using hfk)
      simp_all
    · simpa using hf
  | case2 i j hij hf ih =>
    -- the predicate holds at the midpoint, so it holds above it too
    rw [searchLoop, if_pos hij, if_neg hf]
    apply ih
    refine ⟨by omega, by have := h.le_n; omega, h.below, fun k hk hkn => ?_⟩
    exact hmono ((i + j) / 2) k hk hkn (by simpa using hf)
  | case3 i j hij =>
    have hji : j = i := le_antisymm (Nat.le_of_not_lt hij) h.le
    subst hji
    rw [searchLoop, if_neg hij]
    exact h

/-- **`sort.Search` returns the first index where a monotone predicate holds**, or `n`. -/
theorem search_spec (hmono : MonotoneOn f n) :
    search n f ≤ n ∧ (∀ k, k < search n f → f k = false) ∧
      ∀ k, search n f ≤ k → k < n → f k = true := by
  have h := searchLoop_spec hmono 0 n Bracket.start
  exact ⟨h.le_n, h.below, h.above⟩

/-! ## Sorted insertion -/

section Insert

variable {α : Type} (r : α → α → Prop) [DecidableRel r]

/-- Insertion at a position: before `p` the test fails, at `p` it holds. -/
theorem orderedInsert_eq_of_first (a : α) :
    ∀ (l : List α) (p : Nat), p ≤ l.length →
      (∀ k x, k < p → l[k]? = some x → ¬ r a x) →
      (∀ x, l[p]? = some x → r a x) → l.orderedInsert r a = l.take p ++ a :: l.drop p
  | [], p, hp, _, _ => by
    have hp0 : p = 0 := by simpa using hp
    subst hp0
    rfl
  | b :: l, 0, _, _, hat => by
    simp [List.orderedInsert_cons, hat b rfl]
  | b :: l, p + 1, hp, hbefore, hat => by
    have hb : ¬ r a b := hbefore 0 b (Nat.succ_pos p) rfl
    have ih := orderedInsert_eq_of_first a l p (by simpa using hp)
      (fun k x hk hx => hbefore (k + 1) x (by omega) hx) hat
    simp [List.orderedInsert_cons, hb, ih]

/-- Truncating before inserting changes nothing after truncating again. -/
theorem take_orderedInsert_take (a : α) :
    ∀ (l : List α) (m : Nat),
      ((l.take m).orderedInsert r a).take m = (l.orderedInsert r a).take m
  | [], _ => by simp
  | _ :: _, 0 => rfl
  | b :: l, m + 1 => by
    by_cases hab : r a b
    · -- `a` goes first on both sides; what follows is `b` and `l`, truncated the same way
      simp only [List.take_succ_cons, List.orderedInsert_cons, if_pos hab]
      cases m with
      | zero => rfl
      | succ k => simp [List.take_succ_cons, List.take_take]
    · simp only [List.take_succ_cons, List.orderedInsert_cons, if_neg hab]
      rw [take_orderedInsert_take a l m]

/-- **A run of bounded insertions is the truncation of the run of plain insertions.** -/
theorem foldl_take_orderedInsert (m : Nat) :
    ∀ (xs l : List α), xs.foldl (fun l x => (l.orderedInsert r x).take m) (l.take m) =
      (xs.foldl (fun l x => l.orderedInsert r x) l).take m
  | [], _ => rfl
  | x :: xs, l => by
    simp only [List.foldl_cons]
    rw [take_orderedInsert_take, foldl_take_orderedInsert m xs]

/-- A run of insertions holds what it started with and what it inserted. -/
theorem foldl_orderedInsert_perm :
    ∀ (xs l : List α), (xs.foldl (fun l x => l.orderedInsert r x) l).Perm (l ++ xs)
  | [], l => by simp
  | x :: xs, l => by
    simp only [List.foldl_cons]
    calc List.Perm (xs.foldl (fun l x => l.orderedInsert r x) (l.orderedInsert r x))
          (l.orderedInsert r x ++ xs) := foldl_orderedInsert_perm xs _
      List.Perm _ ((x :: l) ++ xs) := (List.perm_orderedInsert r x l).append_right xs
      List.Perm _ (l ++ x :: xs) := List.perm_middle.symm

end Insert

section Keys

variable {α β : Type} [LinearOrder β] (key : α → β)

/-- Inserting before the first strictly greater key keeps a list sorted by its keys. -/
theorem Pairwise.orderedInsert_lt (a : α) :
    ∀ l : List α, l.Pairwise (fun x y => key x ≤ key y) →
      (l.orderedInsert (fun x y => key x < key y) a).Pairwise (fun x y => key x ≤ key y)
  | [], _ => List.pairwise_singleton _ a
  | b :: l, h => by
    rw [List.pairwise_cons] at h
    by_cases hab : key a < key b
    · rw [List.orderedInsert_cons, if_pos hab]
      refine List.Pairwise.cons (fun y hy => ?_) (List.Pairwise.cons h.1 h.2)
      rcases List.mem_cons.mp hy with rfl | hy
      · exact hab.le
      · exact hab.le.trans (h.1 y hy)
    · rw [List.orderedInsert_cons, if_neg hab]
      refine List.Pairwise.cons (fun y hy => ?_) (Pairwise.orderedInsert_lt a l h.2)
      rcases (List.mem_orderedInsert _).mp hy with rfl | hy
      · exact not_lt.mp hab
      · exact h.1 y hy

/-- A run of such insertions from a sorted list stays sorted. -/
theorem foldl_orderedInsert_pairwise :
    ∀ (xs l : List α), l.Pairwise (fun x y => key x ≤ key y) →
      (xs.foldl (fun l x => l.orderedInsert (fun x y => key x < key y) x) l).Pairwise
        (fun x y => key x ≤ key y)
  | [], _, h => h
  | x :: xs, l, h => foldl_orderedInsert_pairwise xs _ (Pairwise.orderedInsert_lt key x l h)

end Keys

end Bisect
