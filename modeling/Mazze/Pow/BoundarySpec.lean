import Mathlib
import Mazze.Pow.Boundary

/-!
# The boundary check and the quality agree

`compute_inv_x_times_2_pow_256_floor` is `2^256 / x` for every `2 ≤ x < 2^256`
(`computeInvXTimes2Pow256Floor_eq`). With it, a hash at distance `D` from its nonce's lower
bound passes the boundary of a difficulty `d` exactly when `D < 2^256 / d`, and its quality is
at least `d` exactly when `(D + 1) * d ≤ 2^256`: the two say the same, edge cases included, so
the assertion of `verify_pow` never fails.
-/

set_option autoImplicit false

namespace Mazze.Pow

theorem u256Max_add_one : u256Max + 1 = 2 ^ 256 := rfl

/-- Dividing `M + 1` from the quotient and remainder of `M`. -/
theorem succ_div_of_mod {M x : Nat} (hx : 0 < x) :
    (M + 1) / x = if M % x + 1 = x then M / x + 1 else M / x := by
  have hdm := Nat.div_add_mod' M x
  have hlt := Nat.mod_lt M hx
  split_ifs with hr
  · refine Nat.div_eq_of_eq_mul_left hx ?_
    rw [Nat.add_mul, Nat.one_mul]
    omega
  · refine Nat.div_eq_of_lt_le (by omega) ?_
    rw [Nat.add_mul, Nat.one_mul]
    omega

/-- `compute_inv_x_times_2_pow_256_floor` is the floor of `2^256 / x`. -/
theorem computeInvXTimes2Pow256Floor_eq {x : Nat} (hx : 2 ≤ x) (hx' : x < 2 ^ 256) :
    computeInvXTimes2Pow256Floor x = some (2 ^ 256 / x) := by
  have hmod : u256Max % x + 1 < 2 ^ 256 := by
    have := Nat.mod_lt u256Max (by omega : 0 < x)
    omega
  have hdiv : u256Max / x + 1 < 2 ^ 256 := by
    have hmax : u256Max < 2 ^ 256 := by decide
    have h2 : u256Max / x ≤ u256Max / 2 := Nat.div_le_div_left hx (by omega)
    have h3 : u256Max / 2 + 1 < 2 ^ 256 := by decide
    omega
  have hx0 : x ≠ 0 := by omega
  rw [← u256Max_add_one, succ_div_of_mod (by omega : 0 < x)]
  split_ifs with hr
  · simp [computeInvXTimes2Pow256Floor, hx0, Checked.add_of_lt hmod, hr, Checked.add_of_lt hdiv]
  · simp [computeInvXTimes2Pow256Floor, hx0, Checked.add_of_lt hmod, hr]

/-- `2^256 / x` capped at `U256::MAX`: the value both conversions compute. -/
theorem min_div_eq {x : Nat} (hx : 0 < x) (hx' : x < 2 ^ 256) :
    (if x = 1 then u256Max else computeInvXTimes2Pow256Floor x |>.getD 0) =
      min (2 ^ 256 / x) u256Max := by
  split_ifs with h1
  · subst h1
    rfl
  · have h2 : 2 ^ 256 / x ≤ 2 ^ 256 / 2 := Nat.div_le_div_left (by omega) (by omega)
    have h3 : 2 ^ 256 / 2 ≤ u256Max := by decide
    rw [computeInvXTimes2Pow256Floor_eq (by omega) hx', Option.getD_some,
      Nat.min_eq_left (h2.trans h3)]

theorem difficultyToBoundary_eq {d : Nat} (hd : 0 < d) (hd' : d < 2 ^ 256) :
    difficultyToBoundary d = some (min (2 ^ 256 / d) u256Max) := by
  rw [← min_div_eq hd hd']
  by_cases h1 : d = 1
  · simp [difficultyToBoundary, h1, noBoundary]
  · simp [difficultyToBoundary, h1, Nat.pos_iff_ne_zero.mp hd,
      computeInvXTimes2Pow256Floor_eq (by omega) hd']

theorem boundaryToDifficulty_eq {b : Nat} (hb : 0 < b) (hb' : b < 2 ^ 256) :
    boundaryToDifficulty b = some (min (2 ^ 256 / b) u256Max) := by
  rw [← min_div_eq hb hb']
  by_cases h1 : b = 1
  · simp [boundaryToDifficulty, h1]
  · simp [boundaryToDifficulty, h1, Nat.pos_iff_ne_zero.mp hb,
      computeInvXTimes2Pow256Floor_eq (by omega) hb']

/-- The distance of the hash from the nonce's lower bound, as both checks compute it. -/
def distance (hash nonce : Nat) : Nat := wrappingSub hash (nonceToLowerBound nonce)

theorem distance_lt (hash nonce : Nat) : distance hash nonce < 2 ^ 256 :=
  Nat.mod_lt _ (Nat.two_pow_pos 256)

theorem powHashToQuality_unfold (hash nonce : Nat) :
    powHashToQuality hash nonce =
      if distance hash nonce = u256Max then some 1
      else (Checked.add 256 (distance hash nonce) 1).bind boundaryToDifficulty := rfl

/-- The quality is `2^256 / (D + 1)` capped at `U256::MAX`, also at the edges `D = 0` (boundary
    one) and `D = U256::MAX`. -/
theorem powHashToQuality_eq (hash nonce : Nat) :
    powHashToQuality hash nonce =
      some (min (2 ^ 256 / (distance hash nonce + 1)) u256Max) := by
  rw [powHashToQuality_unfold]
  split_ifs with hmax
  · have h1 : 2 ^ 256 / (distance hash nonce + 1) = 1 := by
      rw [hmax, u256Max_add_one, Nat.div_self (Nat.two_pow_pos 256)]
    rw [h1]
    rfl
  · have hlt : distance hash nonce + 1 < 2 ^ 256 := by
      have hD := distance_lt hash nonce
      have : distance hash nonce ≠ 2 ^ 256 - 1 := hmax
      omega
    rw [Checked.add_of_lt hlt, Option.bind_some, boundaryToDifficulty_eq (Nat.succ_pos _) hlt]

theorem validateHashAgainstBoundary_eq (hash nonce boundary : Nat) :
    validateHashAgainstBoundary hash nonce boundary =
      (decide (distance hash nonce < boundary) || boundary == u256Max) := rfl

/-- A distance below `N / d` is one whose successor divides `N` at least `d` times. -/
theorem lt_div_iff_le_div_succ {D d N : Nat} (hd : 0 < d) : D < N / d ↔ d ≤ N / (D + 1) := by
  rw [Nat.lt_iff_add_one_le, Nat.le_div_iff_mul_le hd, Nat.le_div_iff_mul_le (Nat.succ_pos D),
    Nat.mul_comm]

/-- The boundary of a difficulty `d` lets a distance `D` pass exactly when the quality of `D` is
    at least `d`, both capped at `N - 1`. -/
theorem boundary_iff_quality {N D d : Nat} (hD : D < N) (hd : 0 < d) (hd' : d < N) :
    (decide (D < min (N / d) (N - 1)) || min (N / d) (N - 1) == N - 1) = true ↔
      d ≤ min (N / (D + 1)) (N - 1) := by
  rw [le_min_iff, and_iff_left (by omega : d ≤ N - 1)]
  by_cases h1 : d = 1
  · -- difficulty one: no boundary, and every quality is at least one
    subst h1
    rw [Nat.div_one, Nat.min_eq_right (Nat.sub_le N 1)]
    have hq : 1 ≤ N / (D + 1) := (Nat.one_le_div_iff (Nat.succ_pos D)).mpr (by omega)
    simp [hq]
  · -- otherwise the boundary is `N / d`, at most `N / 2`, below `N - 1`
    have h2 : N / d ≤ N / 2 := Nat.div_le_div_left (by omega) (by omega)
    have hne : N / d ≠ N - 1 := by omega
    rw [Nat.min_eq_left (by omega), ← lt_div_iff_le_div_succ hd]
    simp [hne]

/-- `verify_pow` returns, with `Ok` exactly when the hash passes the boundary. -/
theorem verifyPow_eq {powHash nonce difficulty boundary quality : Nat} (hd : 0 < difficulty)
    (hb : difficultyToBoundary difficulty = some boundary)
    (hq : powHashToQuality powHash nonce = some quality)
    (hv : validateHashAgainstBoundary powHash nonce boundary = true → difficulty ≤ quality) :
    verifyPow powHash nonce difficulty =
      if validateHashAgainstBoundary powHash nonce boundary then some (.ok ())
      else some (.error (.invalidProofOfWork ⟨some (nonceToLowerBound nonce),
        some (wrappingAdd (nonceToLowerBound nonce) boundary), powHash⟩)) := by
  unfold verifyPow
  rw [if_neg (Nat.pos_iff_ne_zero.mp hd), hb, hq, Option.bind_eq_bind, Option.bind_some]
  cases hval : validateHashAgainstBoundary powHash nonce boundary
  · rfl
  · show (if difficulty ≤ quality then some (Except.ok ()) else none) = some (Except.ok ())
    exact if_pos (hv hval)

theorem validateHashAgainstBoundary_iff_quality (hash nonce : Nat) {difficulty : Nat}
    (hd : 1 ≤ difficulty) (hd' : difficulty < 2 ^ 256) :
    (∀ x, 2 ≤ x → x < 2 ^ 256 → computeInvXTimes2Pow256Floor x = some (2 ^ 256 / x)) ∧
    ∃ boundary quality, difficultyToBoundary difficulty = some boundary ∧
      powHashToQuality hash nonce = some quality ∧
      (validateHashAgainstBoundary hash nonce boundary = true ↔ difficulty ≤ quality) ∧
      verifyPow hash nonce difficulty ≠ none := by
  have hiff : validateHashAgainstBoundary hash nonce (min (2 ^ 256 / difficulty) u256Max) = true ↔
      difficulty ≤ min (2 ^ 256 / (distance hash nonce + 1)) u256Max := by
    rw [validateHashAgainstBoundary_eq]
    exact boundary_iff_quality (distance_lt hash nonce) hd hd'
  refine ⟨fun x hx hx' => computeInvXTimes2Pow256Floor_eq hx hx', _, _,
    difficultyToBoundary_eq hd hd', powHashToQuality_eq hash nonce, hiff, ?_⟩
  rw [verifyPow_eq hd (difficultyToBoundary_eq hd hd') (powHashToQuality_eq hash nonce) hiff.mp]
  split_ifs <;> simp

theorem validateHashAgainstBoundary_iff_quality_two :
    1 ≤ 2 ∧ 2 < 2 ^ 256 ∧
    ((∀ x, 2 ≤ x → x < 2 ^ 256 → computeInvXTimes2Pow256Floor x = some (2 ^ 256 / x)) ∧
    ∃ boundary quality, difficultyToBoundary 2 = some boundary ∧
      powHashToQuality (2 ^ 255) 0 = some quality ∧
      (validateHashAgainstBoundary (2 ^ 255) 0 boundary = true ↔ 2 ≤ quality) ∧
      verifyPow (2 ^ 255) 0 2 ≠ none) :=
  ⟨by decide, by decide, validateHashAgainstBoundary_iff_quality (2 ^ 255) 0 (by decide) (by decide)⟩

end Mazze.Pow
