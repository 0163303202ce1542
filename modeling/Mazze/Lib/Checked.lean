import Mathlib

/-!
# Unsigned arithmetic that panics

A `U256` panics on every `+`, `-` and `*` whose result does not fit, and so does a primitive
unsigned integer when overflow checks are on. Here the value is a natural number, and the
operation returns `none` where the code panics. A computation that returns `some` did not
panic. Subtraction does not need the width.
-/

set_option autoImplicit false

namespace Checked

/-- `a + b` on `bits`-bit unsigned integers. -/
def add (bits a b : Nat) : Option Nat := if a + b < 2 ^ bits then some (a + b) else none

/-- `a - b` on unsigned integers. -/
def sub (a b : Nat) : Option Nat := if b ≤ a then some (a - b) else none

/-- `a * b` on `bits`-bit unsigned integers. -/
def mul (bits a b : Nat) : Option Nat := if a * b < 2 ^ bits then some (a * b) else none

variable {bits a b c : Nat}

@[simp] theorem add_eq_some_iff : add bits a b = some c ↔ a + b < 2 ^ bits ∧ a + b = c := by
  unfold add
  split
  · simp_all
  · simp only [reduceCtorEq, false_iff, not_and]
    omega

@[simp] theorem sub_eq_some_iff : sub a b = some c ↔ b ≤ a ∧ a - b = c := by
  unfold sub
  split
  · simp_all
  · simp only [reduceCtorEq, false_iff, not_and]
    omega

@[simp] theorem mul_eq_some_iff : mul bits a b = some c ↔ a * b < 2 ^ bits ∧ a * b = c := by
  unfold mul
  split
  · simp_all
  · simp only [reduceCtorEq, false_iff, not_and]
    omega

theorem add_of_lt (h : a + b < 2 ^ bits) : add bits a b = some (a + b) := if_pos h

theorem mul_of_lt (h : a * b < 2 ^ bits) : mul bits a b = some (a * b) := if_pos h

theorem sub_of_le (h : b ≤ a) : sub a b = some (a - b) := if_pos h

theorem sub_of_lt (h : a < b) : sub a b = none := if_neg (Nat.not_le.mpr h)

end Checked
