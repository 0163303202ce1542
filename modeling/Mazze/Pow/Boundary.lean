import Mazze.Lib.Checked

/-!
# Proof-of-work boundary and quality

`mazzecore/core/src/pow/mod.rs` and `VerificationConfig::verify_pow` of
`mazzecore/core/src/verification.rs`. A block's PoW hash, read as a `U256`, is measured from a
lower bound taken from its nonce, with a wrapping subtraction. The block is valid against a
difficulty `d` when that distance is below the boundary `2^256 / d`; its quality, the weight it
brings, is `2^256 / (distance + 1)`. Both divisions are computed from `U256::MAX` by
`compute_inv_x_times_2_pow_256_floor`, with hand-written cases at the edges.

Values of `U256` and `H256` are natural numbers below `2^256`; `div_mod` by zero, the asserts
and a `+` that overflows panic, and return `none` here.
-/

set_option autoImplicit false

namespace Mazze.Pow

/-- `U256::MAX`. -/
def u256Max : Nat := 2 ^ 256 - 1

/-- `ProofOfWorkProblem::NO_BOUNDARY`. -/
def noBoundary : Nat := u256Max

/-- `overflowing_sub(..).0` on `U256`. -/
def wrappingSub (a b : Nat) : Nat := (a + 2 ^ 256 - b) % 2 ^ 256

/-- `overflowing_add(..).0` on `U256`. -/
def wrappingAdd (a b : Nat) : Nat := (a + b) % 2 ^ 256

/-- `nonce_to_lower_bound`: the nonce's big-endian bytes `1 .. 15` and the low seven bits of
    byte `0`, that is the top 128 bits without the highest, in place. -/
def nonceToLowerBound (nonce : Nat) : Nat := nonce % 2 ^ 255 / 2 ^ 128 * 2 ^ 128

/-- `ProofOfWorkProblem::validate_hash_against_boundary`. -/
def validateHashAgainstBoundary (hash nonce boundary : Nat) : Bool :=
  let lowerBound := nonceToLowerBound nonce
  let againstLowerBound := wrappingSub hash lowerBound
  decide (againstLowerBound < boundary) || boundary == noBoundary

/-- `compute_inv_x_times_2_pow_256_floor`: `2^256 / x` from `U256::MAX / x`, one more when the
    remainder is `x - 1`. -/
def computeInvXTimes2Pow256Floor (x : Nat) : Option Nat :=
  -- `div_mod` panics on a zero divisor
  if x = 0 then none
  else do
    let div := u256Max / x
    let modular := u256Max % x
    let modularPlusOne ← Checked.add 256 modular 1
    if modularPlusOne = x then Checked.add 256 div 1 else some div

/-- `boundary_to_difficulty`. -/
def boundaryToDifficulty (boundary : Nat) : Option Nat :=
  if boundary = 0 then none
  else if boundary = 1 then some u256Max
  else computeInvXTimes2Pow256Floor boundary

/-- `difficulty_to_boundary`. -/
def difficultyToBoundary (difficulty : Nat) : Option Nat :=
  if difficulty = 0 then none
  else if difficulty = 1 then some noBoundary
  else computeInvXTimes2Pow256Floor difficulty

/-- `pow_hash_to_quality`. -/
def powHashToQuality (hash nonce : Nat) : Option Nat := do
  let lowerBound := nonceToLowerBound nonce
  let againstBound := wrappingSub hash lowerBound
  if againstBound = u256Max then some 1
  else do
    let boundary ← Checked.add 256 againstBound 1
    boundaryToDifficulty boundary

/-- `OutOfBounds`. -/
structure OutOfBounds where
  min : Option Nat
  max : Option Nat
  found : Nat
  deriving DecidableEq, Repr

/-- The errors of `BlockError` that `verify_pow` returns. -/
inductive BlockError where
  | invalidDifficulty (oob : OutOfBounds)
  | invalidProofOfWork (oob : OutOfBounds)
  deriving DecidableEq, Repr

/-- `VerificationConfig::verify_pow` for a header with the nonce `nonce` and the difficulty
    `difficulty`, whose PoW hash is `powHash` (`get_or_fill_header_pow_hash`). -/
def verifyPow (powHash nonce difficulty : Nat) : Option (Except BlockError Unit) :=
  if difficulty = 0 then
    some (.error (.invalidDifficulty ⟨some 0, some 0, 0⟩))
  else do
    let boundary ← difficultyToBoundary difficulty
    if !validateHashAgainstBoundary powHash nonce boundary then
      let lowerBound := nonceToLowerBound nonce
      let upperBound := wrappingAdd lowerBound boundary
      some (.error (.invalidProofOfWork ⟨some lowerBound, some upperBound, powHash⟩))
    else do
      -- `get_or_fill_header_pow_quality`, then `assert!(pow_quality >= difficulty)`
      let powQuality ← powHashToQuality powHash nonce
      if difficulty ≤ powQuality then some (.ok ()) else none

end Mazze.Pow
