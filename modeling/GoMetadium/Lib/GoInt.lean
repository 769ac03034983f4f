import Mathlib

set_option autoImplicit false

/-! # Go's fixed-width integers

Go's `uint64` and `int64` arithmetic wraps: a `uint64` result is the true value modulo
`2 ^ 64`, an `int64` result the true value brought into `[-2 ^ 63, 2 ^ 63)` modulo `2 ^ 64`.
A model keeps such values as `Nat` and `Int` and applies the wrap where Go's operation does.
Integer division truncates toward zero and panics at run time on a zero divisor; a model
returns `none` for the panic.
The lemmas say when a wrap does nothing, which is what proofs about a program that stays in
range use. Nothing here mentions the program.
-/

namespace GoMetadium.Go

/-! ## `uint64` -/

/-- `a + b` on `uint64`. -/
def addU64 (a b : Nat) : Nat := (a + b) % 2 ^ 64

/-- `a - b` on `uint64`, for `a, b < 2 ^ 64`: below zero it wraps around. -/
def subU64 (a b : Nat) : Nat := (a + 2 ^ 64 - b) % 2 ^ 64

theorem addU64_of_lt {a b : Nat} (h : a + b < 2 ^ 64) : addU64 a b = a + b :=
  Nat.mod_eq_of_lt h

theorem subU64_of_le {a b : Nat} (ha : a < 2 ^ 64) (h : b ≤ a) : subU64 a b = a - b := by
  unfold subU64
  rw [show a + 2 ^ 64 - b = (a - b) + 2 ^ 64 by omega, Nat.add_mod_right]
  exact Nat.mod_eq_of_lt (by omega)

/-! ## `int64` -/

/-- An `int64` result: the true value wrapped into `[-2 ^ 63, 2 ^ 63)`. Go's conversion
`int64(u)` of a `uint64` is this wrap too, the same 64 bits read in two's complement. -/
def wrapI64 (x : Int) : Int := (x + 2 ^ 63) % 2 ^ 64 - 2 ^ 63

/-- `uint64(d)` for an `int64` value `d`: the same 64 bits read unsigned. -/
def uint64OfInt (d : Int) : Nat := (d % 2 ^ 64).toNat

theorem wrapI64_of_mem {x : Int} (h₁ : -2 ^ 63 ≤ x) (h₂ : x < 2 ^ 63) : wrapI64 x = x := by
  unfold wrapI64
  rw [Int.emod_eq_of_lt (by omega) (by omega)]
  omega

/-- Within a window of width `2^63` from `base`, the wrapped difference of two values is the
difference of their offsets from `base`. -/
theorem wrapI64_sub_of_window {a b base : Int} (ha : 0 ≤ wrapI64 (a - base))
    (hb : 0 ≤ wrapI64 (b - base)) : wrapI64 (a - b) = wrapI64 (a - base) - wrapI64 (b - base) := by
  unfold wrapI64 at *
  omega

theorem uint64OfInt_of_mem {d : Int} (h₀ : 0 ≤ d) (h₁ : d < 2 ^ 64) : uint64OfInt d = d.toNat := by
  unfold uint64OfInt
  rw [Int.emod_eq_of_lt h₀ h₁]

/-! ## Division -/

/-- `a / b` on a signed integer: rounded toward zero, a run-time panic for `b = 0`. -/
def div (a b : Int) : Option Int := if b = 0 then none else some (a.tdiv b)

/-- `a % b` on a signed integer: the sign of `a`, a run-time panic for `b = 0`. -/
def mod (a b : Int) : Option Int := if b = 0 then none else some (a.tmod b)

@[simp] theorem div_by_zero (a : Int) : div a 0 = none := rfl

@[simp] theorem mod_by_zero (a : Int) : mod a 0 = none := rfl

theorem div_of_ne {a b : Int} (h : b ≠ 0) : div a b = some (a.tdiv b) := if_neg h

theorem mod_of_ne {a b : Int} (h : b ≠ 0) : mod a b = some (a.tmod b) := if_neg h

end GoMetadium.Go
