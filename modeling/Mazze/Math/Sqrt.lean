import Mathlib
import Mazze.Lib.Checked

/-!
# `sqrt_u256` and `power_two_fractional`

`mazze_math/src/lib.rs`. `sqrt_u256` estimates the root of a `U256` from its top 64 (or 63)
bits, one above the root of that word shifted back into place, and then runs Newton's method
down to the floor root. `power_two_fractional` computes `2^(±ratio / 2^64)` in fixed point by
64 rounds of halving the exponent: each round takes a square root.

`U256` values are natural numbers below `2^256`. Its `*` panics on overflow, which is `none`
here; its shifts drop the bits that leave the word. `u64::sqrt` of the `num` crate is the
floor root, `Nat.sqrt`.
-/

set_option autoImplicit false

namespace Mazze.Math

/-- `U256::bits`: the number of bits of the value, `0` for zero. -/
def bits (x : Nat) : Nat := if x = 0 then 0 else Nat.log2 x + 1

/-- `x << n` on `U256`. -/
def shl (x n : Nat) : Nat := x * 2 ^ n % 2 ^ 256

/-- `x >> n` on `U256`. -/
def shr (x n : Nat) : Nat := x / 2 ^ n

/-- The Newton loop of `sqrt_u256`: `while root * root > input { root = (input / root + root) /
    2 }`, where the product and the sum panic when they overflow. -/
def newtonLoop (input root : Nat) : Option Nat :=
  if hsq : root * root < 2 ^ 256 then
    if hgt : input < root * root then
      if input / root + root < 2 ^ 256 then
        newtonLoop input ((input / root + root) / 2)
      else none
    else some root
  else none
termination_by root
decreasing_by
  -- the quotient is below `root`, since `input < root * root`
  have hr : 0 < root := Nat.pos_of_ne_zero fun h0 => by simp [h0] at hgt
  have hq : input / root < root := (Nat.div_lt_iff_lt_mul hr).mpr hgt
  omega

/-- `sqrt_u256`. -/
def sqrtU256 (input : Nat) : Option Nat :=
  let bits := bits input
  if bits ≤ 64 then some (Nat.sqrt input)
  else
    -- the top `significantBits` bits, an even number of bits below them
    let significantBits := 64 - bits % 2
    let restBits := bits - significantBits
    let significantWord := shr input restBits
    -- slightly larger than the correct root
    let initRoot := shl (Nat.sqrt significantWord + 1) (restBits / 2)
    newtonLoop input initRoot

/-- One round of `power_two_fractional` on bit `i` of the ratio: the base moves up or down a
    bit when the ratio has it, and its root is taken and moved back up 127 bits. -/
def powerTwoFractionalStep (ratio : Nat) (increase : Bool) (base i : Nat) : Option Nat := do
  let base :=
    if ratio.testBit i then (if increase then shl base 1 else shr base 1) else base
  let base ← sqrtU256 base
  pure (shl base 127)

/-- `power_two_fractional`: `assert!(precision <= 127)`, then the 64 rounds from `2^254`, and
    the result shifted down to `precision` bits of fraction. -/
def powerTwoFractional (ratio : Nat) (increase : Bool) (precision : Nat) : Option Nat :=
  if precision ≤ 127 then do
    let base ← (List.range 64).foldlM (powerTwoFractionalStep ratio increase) (2 ^ 254)
    pure (shr base (254 - precision))
  else none

end Mazze.Math
