import Mathlib

set_option autoImplicit false

/-! # Deterministic machines, their runs, invariants and simulations

A component with methods (a cache, a store) is modelled as a machine: a state, and a step
that takes the state and one call and returns the call's reply and the new state. A run is a
list of calls. This file proves once, for every machine, the facts the component
proofs need:

* an invariant kept by every step holds after every run (`Machine.run_inv`), and one kept by
  the steps of some calls after every run of such calls (`Machine.run_inv_of_forall`);
* if an abstraction function maps the states satisfying an invariant to the states of a
  second machine so that each step has the same reply and commutes with the abstraction,
  then every run of the first machine has the same replies as the run of the second from the
  abstract start (`Simulation.run_replies`).

Nothing here mentions the program.
-/

namespace GoMetadium

/-- A deterministic machine with states `σ`, calls `ι` and replies `ω`. -/
structure Machine (σ ι ω : Type) where
  step : σ → ι → ω × σ

namespace Machine

variable {σ τ ι ω : Type} (m : Machine σ ι ω)

/-- The replies of a run and the state it ends in. -/
def run : σ → List ι → List ω × σ
  | s, [] => ([], s)
  | s, i :: is => ((m.step s i).1 :: (run (m.step s i).2 is).1, (run (m.step s i).2 is).2)

@[simp] theorem run_nil (s : σ) : m.run s [] = ([], s) := rfl

@[simp] theorem run_cons (s : σ) (i : ι) (is : List ι) :
    m.run s (i :: is) =
      ((m.step s i).1 :: (m.run (m.step s i).2 is).1, (m.run (m.step s i).2 is).2) := rfl

/-- `inv` is kept by every step. -/
def Preserves (inv : σ → Prop) : Prop := ∀ s i, inv s → inv (m.step s i).2

/-- An invariant kept by every step holds at the end of every run. -/
theorem run_inv {inv : σ → Prop} (h : m.Preserves inv) :
    ∀ (s : σ) (is : List ι), inv s → inv (m.run s is).2
  | _, [], hs => hs
  | s, i :: is, hs => run_inv h (m.step s i).2 is (h s i hs)

/-- An invariant kept by every step of the calls `P` allows holds at the end of every run of
such calls: a property that only holds while the environment keeps a promise (a deadline, say)
holds as long as it does. -/
theorem run_inv_of_forall {inv : σ → Prop} {P : ι → Prop}
    (h : ∀ s i, P i → inv s → inv (m.step s i).2) :
    ∀ (s : σ) (is : List ι), (∀ i ∈ is, P i) → inv s → inv (m.run s is).2 := by
  intro s is
  induction is generalizing s with
  | nil => intro _ hs; exact hs
  | cons i is ih =>
    intro hP hs
    exact ih (m.step s i).2 (fun j hj => hP j (List.mem_cons_of_mem i hj))
      (h s i (hP i List.mem_cons_self) hs)

/-- A run of two lists of calls ends where the run of the second from the end of the first
ends. -/
theorem run_append (s : σ) (is js : List ι) :
    (m.run s (is ++ js)).2 = (m.run (m.run s is).2 js).2 := by
  induction is generalizing s with
  | nil => rfl
  | cons i is ih => exact ih (m.step s i).2

/-- An invariant that relates the state to the calls made so far: if every step keeps it
with the call appended to the history, it holds after every run with the run's calls
appended. -/
theorem run_history {P : σ → List ι → Prop}
    (h : ∀ s hist i, P s hist → P (m.step s i).2 (hist ++ [i])) :
    ∀ (s : σ) (hist is : List ι), P s hist → P (m.run s is).2 (hist ++ is)
  | _, hist, [], hs => by simpa using hs
  | s, hist, i :: is, hs => by
    have := run_history h (m.step s i).2 (hist ++ [i]) is (h s hist i hs)
    simpa using this

/-- The `j`-th reply of a run is the reply of the `j`-th call in the state the first `j`
calls lead to. -/
theorem run_reply_getElem? :
    ∀ (s : σ) (is : List ι) (j : Nat),
      (m.run s is).1[j]? = is[j]?.map fun i => (m.step (m.run s (is.take j)).2 i).1
  | _, [], _ => rfl
  | _, _ :: _, 0 => rfl
  | s, i :: is, j + 1 => by
    simp only [run_cons, List.getElem?_cons_succ, List.take_succ_cons]
    exact run_reply_getElem? (m.step s i).2 is j

end Machine

/-- A simulation of `m` by `m'`: on the states satisfying `inv`, which every step keeps,
`abs` gives every step of `m` the reply of the matching step of `m'` and commutes with
it. -/
structure Simulation {σ τ ι ω : Type} (m : Machine σ ι ω) (m' : Machine τ ι ω) where
  inv : σ → Prop
  abs : σ → τ
  step_inv : m.Preserves inv
  step_reply : ∀ s i, inv s → (m.step s i).1 = (m'.step (abs s) i).1
  step_abs : ∀ s i, inv s → abs (m.step s i).2 = (m'.step (abs s) i).2

namespace Simulation

variable {σ τ ι ω : Type} {m : Machine σ ι ω} {m' : Machine τ ι ω} (sim : Simulation m m')

/-- A run of `m` ends in the abstraction of the state where the run of `m'` ends. -/
theorem run_abs : ∀ (s : σ) (is : List ι), sim.inv s →
    sim.abs (m.run s is).2 = (m'.run (sim.abs s) is).2
  | _, [], _ => rfl
  | s, i :: is, hs => by
    rw [Machine.run_cons, Machine.run_cons, ← sim.step_abs s i hs]
    exact run_abs (m.step s i).2 is (sim.step_inv s i hs)

/-- **Refinement.** Every run of `m` from a state satisfying the invariant has the replies
of the run of `m'` from its abstraction. -/
theorem run_replies : ∀ (s : σ) (is : List ι), sim.inv s →
    (m.run s is).1 = (m'.run (sim.abs s) is).1
  | _, [], _ => rfl
  | s, i :: is, hs => by
    rw [Machine.run_cons, Machine.run_cons, sim.step_reply s i hs, ← sim.step_abs s i hs,
      run_replies (m.step s i).2 is (sim.step_inv s i hs)]

end Simulation

end GoMetadium
