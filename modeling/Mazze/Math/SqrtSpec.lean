import Mathlib
import Mazze.Math.Sqrt

/-!
# `sqrt_u256` is the floor root, or panics near `2^256`

Newton's method from above stays above the floor root and strictly decreases until its square
fits under the input (`newtonLoop_eq`), and the first estimate is above the root
(`sqrt_lt_initRoot`). So `sqrt_u256` returns the floor root whenever the square of its first
estimate fits in a `U256`. It does not for the inputs whose top 64 bits are at least
`(2^32 - 1)^2`: the estimate is then `2^128`, and `root * root` overflows before the first
step (`sqrtU256_eq`).
-/

set_option autoImplicit false

namespace Mazze.Math

/-- The least input for which `sqrt_u256` panics: `(2^32 - 1)^2 * 2^192`. -/
def sqrtPanicBound : Nat := (2 ^ 32 - 1) * (2 ^ 32 - 1) * 2 ^ 192

/-- Newton's step from any positive guess is at least the floor root. -/
theorem sqrt_le_newtonStep {n r : Nat} (hr : 0 < r) : Nat.sqrt n ≤ (n / r + r) / 2 := by
  have hs : Nat.sqrt n * Nat.sqrt n ≤ n := Nat.sqrt_le n
  have hq : n < r * (n / r + 1) := Nat.lt_mul_div_succ n hr
  by_contra hlt
  -- `2 * sqrt n > n / r + r` would put `n` below `sqrt n ^ 2`
  have h2 : n / r + 1 + r ≤ 2 * Nat.sqrt n := by omega
  have h3 := Nat.mul_le_mul_left r h2
  nlinarith [two_mul_le_add_sq (Nat.sqrt n) r]

/-- From a guess at least the floor root whose square fits, the loop ends at the floor root. -/
theorem newtonLoop_eq {input root : Nat} (hroot : Nat.sqrt input ≤ root)
    (hsq : root * root < 2 ^ 256) : newtonLoop input root = some (Nat.sqrt input) := by
  -- strong induction on the guess, which every step lowers
  induction root using Nat.strong_induction_on with
  | _ root ih =>
    rw [newtonLoop, dif_pos hsq]
    by_cases hgt : input < root * root
    · have hr : 0 < root := Nat.pos_of_ne_zero fun h0 => by simp [h0] at hgt
      have hq : input / root < root := (Nat.div_lt_iff_lt_mul hr).mpr hgt
      have hr128 : root < 2 ^ 128 := Nat.mul_self_lt_mul_self_iff.mp (by simpa using hsq)
      have hnext : (input / root + root) / 2 < root := by omega
      rw [dif_pos hgt, if_pos (by omega)]
      refine ih _ hnext (sqrt_le_newtonStep hr) ?_
      exact lt_of_le_of_lt (Nat.mul_self_le_mul_self hnext.le) hsq
    · -- the guess squared fits under the input: it is the floor root
      rw [dif_neg hgt]
      exact congrArg some (le_antisymm (Nat.le_sqrt.mpr (Nat.not_lt.mp hgt)) hroot)

theorem newtonLoop_of_overflow {input root : Nat} (hsq : 2 ^ 256 ≤ root * root) :
    newtonLoop input root = none := by
  rw [newtonLoop, dif_neg (Nat.not_lt.mpr hsq)]

/-- A value has at most `bits x` bits: it lies below `2^(bits x)`. -/
theorem lt_two_pow_bits (x : Nat) : x < 2 ^ bits x := by
  unfold bits
  split_ifs with h
  · simp [h]
  · exact Nat.lt_log2_self

theorem bits_le {x n : Nat} (hx : x < 2 ^ n) : bits x ≤ n := by
  unfold bits
  split_ifs with h
  · exact Nat.zero_le n
  · exact Nat.succ_le_of_lt ((Nat.log2_lt h).mpr hx)

theorem shr_lt {x rest sig : Nat} (h : x < 2 ^ (rest + sig)) : shr x rest < 2 ^ sig := by
  unfold shr
  rw [Nat.div_lt_iff_lt_mul (Nat.two_pow_pos _), ← Nat.pow_add, Nat.add_comm]
  exact h

/-- The first estimate is above the root: the word read back is above the input, and an even
    shift halves in the root. -/
theorem sqrt_lt_initRoot (x : Nat) {rest : Nat} (hrest : rest % 2 = 0) :
    Nat.sqrt x < (Nat.sqrt (shr x rest) + 1) * 2 ^ (rest / 2) := by
  have hx : x < (shr x rest + 1) * 2 ^ rest := by
    rw [Nat.mul_comm]
    exact Nat.lt_mul_div_succ x (Nat.two_pow_pos rest)
  have hw := Nat.succ_le_succ_sqrt (shr x rest)
  have hsplit : 2 ^ rest = 2 ^ (rest / 2) * 2 ^ (rest / 2) := by
    rw [← Nat.pow_add]
    congr 1
    omega
  refine Nat.sqrt_lt.mpr (lt_of_lt_of_le hx ?_)
  calc (shr x rest + 1) * 2 ^ rest
      ≤ (Nat.sqrt (shr x rest) + 1) * (Nat.sqrt (shr x rest) + 1) * 2 ^ rest :=
        Nat.mul_le_mul_right _ hw
    _ = (Nat.sqrt (shr x rest) + 1) * 2 ^ (rest / 2) *
          ((Nat.sqrt (shr x rest) + 1) * 2 ^ (rest / 2)) := by
        rw [hsplit]
        ring

/-- The word read from the top has `64` bits, or `63` for an odd number of bits. -/
theorem word_lt {x : Nat} (hb : 64 < bits x) :
    shr x (bits x - (64 - bits x % 2)) < 2 ^ (64 - bits x % 2) := by
  refine shr_lt ?_
  rw [Nat.sub_add_cancel (by omega)]
  exact lt_two_pow_bits x

/-- The first estimate is at most `2^128`. -/
theorem initRoot_le {x : Nat} (hx : x < 2 ^ 256) (hb : 64 < bits x) :
    (Nat.sqrt (shr x (bits x - (64 - bits x % 2))) + 1) * 2 ^ ((bits x - (64 - bits x % 2)) / 2)
      ≤ 2 ^ 128 := by
  have hb256 : bits x ≤ 256 := bits_le hx
  have hw : shr x (bits x - (64 - bits x % 2)) < 2 ^ 64 :=
    lt_of_lt_of_le (word_lt hb) (Nat.pow_le_pow_right (by decide : 2 > 0) (by omega))
  have hsw : Nat.sqrt (shr x (bits x - (64 - bits x % 2))) < 2 ^ 32 :=
    Nat.sqrt_lt.mpr (by rw [← Nat.pow_add]; exact hw)
  calc (Nat.sqrt (shr x (bits x - (64 - bits x % 2))) + 1) *
          2 ^ ((bits x - (64 - bits x % 2)) / 2)
      ≤ 2 ^ 32 * 2 ^ 96 := Nat.mul_le_mul (by omega) (Nat.pow_le_pow_right (by decide) (by omega))
    _ = 2 ^ 128 := by rw [← Nat.pow_add]

/-- The first estimate is below `2^128`, so that its square fits in a `U256`, exactly below
    `sqrtPanicBound`. -/
theorem initRoot_lt_iff {x : Nat} (hx : x < 2 ^ 256) (hb : 64 < bits x) :
    (Nat.sqrt (shr x (bits x - (64 - bits x % 2))) + 1) * 2 ^ ((bits x - (64 - bits x % 2)) / 2)
      < 2 ^ 128 ↔ x < sqrtPanicBound := by
  have hb256 : bits x ≤ 256 := bits_le hx
  have hw := word_lt hb
  constructor
  · -- at `2^255` and above, the shift is `192` and the word at least `(2^32 - 1)^2`
    intro hlt
    by_contra hT
    have hT' : sqrtPanicBound ≤ x := Nat.not_lt.mp hT
    have h255 : 2 ^ 255 < 2 ^ bits x :=
      lt_of_le_of_lt (le_trans (by decide) hT') (lt_two_pow_bits x)
    have h256 : bits x = 256 := le_antisymm hb256 ((Nat.pow_lt_pow_iff_right (by decide)).mp h255)
    rw [h256] at hlt
    have hword : (2 ^ 32 - 1) * (2 ^ 32 - 1) ≤ shr x 192 :=
      (Nat.le_div_iff_mul_le (Nat.two_pow_pos 192)).mpr hT'
    have hsw : 2 ^ 32 - 1 ≤ Nat.sqrt (shr x 192) := Nat.le_sqrt.mpr hword
    have hge : 2 ^ 32 * 2 ^ 96 ≤ (Nat.sqrt (shr x 192) + 1) * 2 ^ 96 :=
      Nat.mul_le_mul_right _ (by omega)
    exact absurd hlt (Nat.not_lt.mpr (le_trans (by decide) hge))
  · intro hT
    by_cases hfull : bits x % 2 = 1 ∨ bits x = 256
    · -- an odd number of bits, or all 256: the word is below `(2^32 - 1)^2`
      have hword : shr x (bits x - (64 - bits x % 2)) < (2 ^ 32 - 1) * (2 ^ 32 - 1) := by
        rcases hfull with hodd | h256
        · have h63 : 64 - bits x % 2 = 63 := by omega
          rw [h63] at hw ⊢
          exact lt_of_lt_of_le hw (by decide)
        · rw [h256]
          exact (Nat.div_lt_iff_lt_mul (Nat.two_pow_pos 192)).mpr hT
      have hsw := Nat.sqrt_lt.mpr hword
      calc (Nat.sqrt (shr x (bits x - (64 - bits x % 2))) + 1) *
              2 ^ ((bits x - (64 - bits x % 2)) / 2)
          ≤ (2 ^ 32 - 1) * 2 ^ 96 :=
            Nat.mul_le_mul (by omega) (Nat.pow_le_pow_right (by decide) (by omega))
        _ < 2 ^ 128 := by decide
    · -- an even number of bits below 256: the shift is at most `190`
      have h64 : 64 - bits x % 2 = 64 := by omega
      have hsw : Nat.sqrt (shr x (bits x - (64 - bits x % 2))) < 2 ^ 32 := by
        rw [h64] at hw ⊢
        exact Nat.sqrt_lt.mpr hw
      calc (Nat.sqrt (shr x (bits x - (64 - bits x % 2))) + 1) *
              2 ^ ((bits x - (64 - bits x % 2)) / 2)
          ≤ 2 ^ 32 * 2 ^ 95 :=
            Nat.mul_le_mul (by omega) (Nat.pow_le_pow_right (by decide) (by omega))
        _ < 2 ^ 128 := by decide

/-- `sqrt_u256` returns the floor root below `sqrtPanicBound`, and panics from there on. -/
theorem sqrtU256_eq {x : Nat} (hx : x < 2 ^ 256) :
    sqrtU256 x = if sqrtPanicBound ≤ x then none else some (Nat.sqrt x) := by
  unfold sqrtU256
  by_cases hb : bits x ≤ 64
  · have hx64 : x < 2 ^ 64 :=
      lt_of_lt_of_le (lt_two_pow_bits x) (Nat.pow_le_pow_right (by decide) hb)
    have hT : ¬ sqrtPanicBound ≤ x := Nat.not_le.mpr (lt_of_lt_of_le hx64 (by decide))
    simp only [hb, if_true, hT, if_false]
  · have hrest : (bits x - (64 - bits x % 2)) % 2 = 0 := by omega
    have hinit := initRoot_lt_iff hx (by omega)
    have hfit : (Nat.sqrt (shr x (bits x - (64 - bits x % 2))) + 1) *
        2 ^ ((bits x - (64 - bits x % 2)) / 2) < 2 ^ 256 :=
      lt_of_le_of_lt (initRoot_le hx (by omega)) (by decide)
    simp only [hb, if_false, shl, Nat.mod_eq_of_lt hfit]
    split_ifs with hT
    · refine newtonLoop_of_overflow ?_
      have h128 := Nat.not_lt.mp (mt hinit.mp (Nat.not_lt.mpr hT))
      calc 2 ^ 256 = 2 ^ 128 * 2 ^ 128 := by rw [← Nat.pow_add]
        _ ≤ _ := Nat.mul_self_le_mul_self h128
    · refine newtonLoop_eq (sqrt_lt_initRoot x hrest).le ?_
      have h128 := hinit.mpr (Nat.not_le.mp hT)
      calc _ < 2 ^ 128 * 2 ^ 128 := Nat.mul_self_lt_mul_self h128
        _ = 2 ^ 256 := by rw [← Nat.pow_add]

theorem sqrtU256_max_panics : sqrtU256 (2 ^ 256 - 1) = none := by
  rw [sqrtU256_eq (by decide), if_pos (by decide)]

end Mazze.Math
