import Mathlib
import Mazze.Primitives.BasePrice

/-!
# `estimate_gas_used_boundary` inverts `compute_next_price`

For a target `T`, a last price `L` and a price `p`, `estimate_gas_used_boundary` returns two
edges: the last gas use whose price is below `p` and the first one whose price is above it. The
gas uses in between are those of price `p`, and `estimate_max_possible_gas` is the last gas use
of price at most `p`. The one fact behind all of it is that the edges *bracket* `p`
(`Brackets`): on `0..2T` the price is below `p` exactly up to the lower edge and above it
exactly from the upper one. This file proves the bracket case by case, as the code computes the
edges: a zero last price, a `p` beyond what one block can move, `p = L`, and a `p` one step up
or down, where the edges are floor divisions that `priceDelta_lt_iff` and `lt_priceDelta_iff`
read back as products.

The edges are computed in `U256`. From a last price of two up, the code's bound
`T · L · 8 < 2^256` keeps every product within it. Below, it does not: with a last price of one
the upper edge one move up is `T + 16 T`, and with a last price of zero it is `2 T + 1`
(`estimateGasUsedBoundary_overflows`). `Fits` adds the two bounds these need.
-/

set_option autoImplicit false

namespace Mazze.Primitives

/-! ## Edges that bracket a level -/

section Brackets

/-- `lo` and `up` bracket the level `p` of `f` on `0..bound`: `f` is below `p` exactly at the
    points up to `lo`, and above `p` exactly at the points from `up`. -/
def Brackets (f : Nat → Nat) (bound p : Nat) (lo up : Option Nat) : Prop :=
  ∀ g ≤ bound, (f g < p ↔ ∃ x ∈ lo, g ≤ x) ∧ (p < f g ↔ ∃ y ∈ up, y ≤ g)

variable {f : Nat → Nat} {bound p : Nat} {lo up : Option Nat}

/-- Between the edges `f` is at the level. -/
theorem Brackets.eq_iff (h : Brackets f bound p lo up) {g : Nat} (hg : g ≤ bound) :
    f g = p ↔ lo.elim 0 (· + 1) ≤ g ∧ ∀ y ∈ up, g < y := by
  obtain ⟨hlt, hgt⟩ := h g hg
  constructor
  · intro heq
    refine ⟨?_, fun y hy => Nat.lt_of_not_le fun hyg => ?_⟩
    · cases lo with
      | none => exact Nat.zero_le _
      | some x =>
        refine Nat.lt_of_not_le fun hgx => ?_
        have := hlt.mpr ⟨x, rfl, hgx⟩
        omega
    · have := hgt.mpr ⟨y, hy, hyg⟩
      omega
  · rintro ⟨hl, hu⟩
    have hnlt : ¬ f g < p := fun h => by
      obtain ⟨x, hx, hgx⟩ := hlt.mp h
      cases hx
      exact absurd hl (by simp only [Option.elim]; omega)
    have hngt : ¬ p < f g := fun h => by
      obtain ⟨y, hy, hyg⟩ := hgt.mp h
      exact absurd (hu y hy) (by omega)
    omega

/-- At or below the level is before the upper edge. -/
theorem Brackets.le_iff (h : Brackets f bound p lo up) {g : Nat} (hg : g ≤ bound) :
    f g ≤ p ↔ ∀ y ∈ up, g < y := by
  rw [← Nat.not_lt, (h g hg).2]
  simp only [not_exists, not_and, Nat.not_le]

end Brackets

/-! ## The price of each gas use -/

@[simp] theorem basePriceChangeDenominator_eq : basePriceChangeDenominator = 8 := rfl

/-- The price `compute_next_price` gives, with no minimum, for a gas use `g` within twice the
    target: the last price at the target, moved by `priceDelta` on either side of it. -/
def nextPriceOf (T g L : Nat) : Nat :=
  if g = T then L
  else if T < g then L + priceDelta T (g - T) L
  else L - priceDelta T (T - g) L

section PriceDelta

variable {T d L : Nat}

/-- `priceDelta` is one floor division, raised to one. -/
theorem priceDelta_eq (T d L : Nat) : priceDelta T d L = max 1 (d * L / (T * 8)) := by
  simp only [priceDelta, basePriceChangeDenominator_eq, Nat.div_div_eq_div_mul]
  split
  · next h => rw [h]; rfl
  · next h => exact (max_eq_right (Nat.pos_of_ne_zero h)).symm

theorem one_le_priceDelta : 1 ≤ priceDelta T d L := by
  rw [priceDelta_eq]
  exact le_max_left _ _

/-- Within the target's distance the price moves by at most an eighth of it, and by one. -/
theorem priceDelta_le (hT : 0 < T) (hd : d ≤ T) : priceDelta T d L ≤ max 1 (L / 8) := by
  rw [priceDelta_eq]
  have hdiv : d * L / (T * 8) ≤ L / 8 :=
    calc d * L / (T * 8) ≤ T * L / (T * 8) := Nat.div_le_div_right (Nat.mul_le_mul_right L hd)
      _ = L / 8 := Nat.mul_div_mul_left L 8 hT
  exact max_le_max_left 1 hdiv

/-- The largest move, of an eighth and at least one, is at most the last price when there is
    one. -/
theorem max_one_le {L : Nat} : max 1 (L / 8) ≤ L + 1 ∧ (L ≠ 0 → max 1 (L / 8) ≤ L) := by
  rcases max_cases 1 (L / 8) with ⟨h, -⟩ | ⟨h, -⟩ <;> rw [h] <;> omega

/-- A move below `k ≥ 2` is a product below `k` eighths of the target. -/
theorem priceDelta_lt_iff {k : Nat} (hT : 0 < T) (hk : 2 ≤ k) :
    priceDelta T d L < k ↔ d * L < k * T * 8 := by
  rw [priceDelta_eq, max_lt_iff, Nat.div_lt_iff_lt_mul (by omega), ← Nat.mul_assoc]
  omega

/-- A move above `k ≥ 1` is a product of at least `k + 1` eighths of the target. -/
theorem lt_priceDelta_iff {k : Nat} (hT : 0 < T) (hk : 1 ≤ k) :
    k < priceDelta T d L ↔ (k + 1) * T * 8 ≤ d * L := by
  rw [priceDelta_eq, lt_max_iff, Nat.mul_assoc, ← Nat.le_div_iff_mul_le (by omega)]
  omega

end PriceDelta

section NextPrice

variable {T L : Nat}

/-- Above the target the checked operations of `nextBasePrice` fit, and it adds the move. -/
theorem nextBasePrice_above {g : Nat} (hT : 0 < T) (hg : T < g) (hmul : (g - T) * L < 2 ^ 256)
    (hadd : L + priceDelta T (g - T) L < 2 ^ 256) (hd : g - T ≤ T) :
    nextBasePrice T g L = some (L + priceDelta T (g - T) L) := by
  have hne : ¬ (T = 0 ∨ T = g) := by omega
  simp only [nextBasePrice, hne, if_false, gt_iff_lt, hg, if_true, hd, Checked.mul_of_lt hmul,
    Option.bind_some, Checked.add_of_lt hadd]

/-- Below the target `nextBasePrice` takes the move off, down to zero. -/
theorem nextBasePrice_below {g : Nat} (hg : g < T) (hmul : (T - g) * L < 2 ^ 256)
    (hle : priceDelta T (T - g) L ≤ L ∨ L = 0) :
    nextBasePrice T g L = some (L - priceDelta T (T - g) L) := by
  have hne : ¬ (T = 0 ∨ T = g) := by omega
  have hngt : ¬ T < g := by omega
  have hd : T - g ≤ T := Nat.sub_le T g
  simp only [nextBasePrice, hne, if_false, gt_iff_lt, hngt, hd, if_true, Checked.mul_of_lt hmul,
    Option.bind_some, Bool.false_eq_true]
  by_cases hL : L = 0
  · simp [hL]
  · rw [if_pos hL, Checked.sub_of_le (hle.resolve_right hL)]

/-- The bounds under which the code's `U256` arithmetic does not overflow: its own
    `T · L · 8 < 2^256`, and for the last prices zero and one, where the edges past the target
    are `2T + 1` and `T + 16T`, the bounds that keep those within `U256`. -/
structure Fits (T L : Nat) : Prop where
  mul : T * L * 8 < 2 ^ 256
  one : L = 1 → 17 * T < 2 ^ 256
  zero : L = 0 → 2 * T < 2 ^ 256

variable (hT : 0 < T) (hov : Fits T L)
include hT hov

/-- Twice the target, and one past it, are within `U256`. -/
theorem Fits.twice : T * 2 + 1 < 2 ^ 256 := by
  rcases Nat.eq_zero_or_pos L with hL | hL
  · have := hov.zero hL
    omega
  · have hTL : T ≤ T * L := Nat.le_mul_of_pos_right T hL
    have := hov.mul
    omega

/-- The prices one move from a nonzero last price are within `U256`. -/
theorem Fits.window (hL : L ≠ 0) : L + max 1 (L / 8) < 2 ^ 256 := by
  have hLT : L ≤ T * L := Nat.le_mul_of_pos_left L hT
  have hM := (max_one_le (L := L)).2 hL
  have := hov.mul
  omega

/-- The products of an edge one move from a nonzero last price are within `U256`: the largest
    is `(k + 1) · T · 8 + L`, and the upper edge adds `T` to its quotient by `L`. Past a last
    price of fifteen the move is an eighth of it and the code's bound covers both; below it
    the move is one, and a last price of one, where the quotient is the product itself, is
    what `Fits.one` is for. -/
theorem Fits.move (hL : L ≠ 0) {k : Nat} (hk : k ≤ max 1 (L / 8)) :
    (k + 1) * T * 8 + L < 2 ^ 256 ∧ T + ((k + 1) * T * 8 + L - 1) / L < 2 ^ 256 := by
  have hmul := hov.mul
  have hk1 : (k + 1) * T = k * T + T := Nat.succ_mul k T
  have hprod : (k + 1) * T * 8 + L < 2 ^ 256 := by
    rcases Nat.lt_or_ge L 16 with hsmall | hlarge
    · -- a move of one: the product is at most `16 T`
      have hk1' : k * T ≤ 1 * T := Nat.mul_le_mul_right T (by
        rcases max_cases 1 (L / 8) with ⟨h, -⟩ | ⟨h, -⟩ <;> omega)
      rcases (show L = 1 ∨ L = 2 ∨ 3 ≤ L by omega) with rfl | rfl | h3
      · have := hov.one rfl
        omega
      · omega
      · have : 3 * T ≤ T * L := by rw [Nat.mul_comm 3 T]; exact Nat.mul_le_mul_left T h3
        omega
    · -- a move of an eighth: the product is at most `T L + 8 T`
      have hk8 : k * 8 ≤ L := by
        have := Nat.div_mul_le_self L 8
        rcases max_cases 1 (L / 8) with ⟨h, -⟩ | ⟨h, -⟩ <;> omega
      have hkT : k * T * 8 ≤ T * L :=
        calc k * T * 8 = T * (k * 8) := by ring
          _ ≤ T * L := Nat.mul_le_mul_left T hk8
      have h16 : 16 * T ≤ T * L := by rw [Nat.mul_comm 16 T]; exact Nat.mul_le_mul_left T hlarge
      have hLT : L ≤ T * L := Nat.le_mul_of_pos_left L hT
      omega
  refine ⟨hprod, ?_⟩
  rcases (show L = 1 ∨ 2 ≤ L by omega) with rfl | h2
  · -- the quotient by one is the product, of at most `16 T`
    have hk1' : k ≤ 1 := by simpa using hk
    have := hov.one rfl
    have : k * T ≤ 1 * T := Nat.mul_le_mul_right T hk1'
    rw [Nat.div_one]
    omega
  · have hdiv : ((k + 1) * T * 8 + L - 1) / L ≤ ((k + 1) * T * 8 + L - 1) / 2 :=
      Nat.div_le_div_left h2 (by omega)
    omega

/-- Under the bound, `compute_next_price` with no minimum is `nextPriceOf` on `0..2T`. -/
theorem computeNextPrice_eq {g : Nat} (hg : g ≤ 2 * T) :
    computeNextPrice T g L 0 = some (nextPriceOf T g L) := by
  have hLT : L ≤ T * L := Nat.le_mul_of_pos_left L hT
  have hmul := hov.mul
  have htwice : T * 2 < 2 ^ 256 := by have := hov.twice hT; omega
  have hcap : ¬ g > T * 2 := by omega
  simp only [computeNextPrice, Checked.mul_of_lt htwice, Option.bind_eq_bind, Option.bind_some,
    hcap, if_false]
  unfold nextPriceOf
  rcases lt_trichotomy g T with hlt | heq | hgt
  · -- below the target: the move is at most the last price
    have hd : T - g ≤ T := Nat.sub_le T g
    have hmul : (T - g) * L ≤ T * L := Nat.mul_le_mul_right L hd
    have hle : priceDelta T (T - g) L ≤ L ∨ L = 0 := by
      have := priceDelta_le (L := L) hT hd
      have := (max_one_le (L := L)).2
      by_cases hL : L = 0 <;> omega
    rw [nextBasePrice_below hlt (by omega) hle, if_neg (by omega), if_neg (by omega)]
    simp
  · rw [nextBasePrice_of_target (.inr heq.symm), if_pos heq]
    simp
  · have hd : g - T ≤ T := by omega
    have hmul : (g - T) * L ≤ T * L := Nat.mul_le_mul_right L hd
    have hpd := priceDelta_le (L := L) hT hd
    have := (max_one_le (L := L)).1
    rw [nextBasePrice_above hT hgt (by omega) (by omega) hd, if_neg (by omega), if_pos hgt]
    simp

end NextPrice

/-! ## The price on either side of the target -/

section Regions

variable {T g L : Nat}

theorem nextPriceOf_self : nextPriceOf T T L = L := if_pos rfl

theorem nextPriceOf_of_lt (h : g < T) : nextPriceOf T g L = L - priceDelta T (T - g) L := by
  rw [nextPriceOf, if_neg (by omega), if_neg (by omega)]

theorem nextPriceOf_of_gt (h : T < g) : nextPriceOf T g L = L + priceDelta T (g - T) L := by
  rw [nextPriceOf, if_neg (by omega), if_pos h]

/-- Up to the target the price is at most the last one. -/
theorem nextPriceOf_le_of_le (h : g ≤ T) : nextPriceOf T g L ≤ L := by
  rcases Nat.lt_or_eq_of_le h with hlt | rfl
  · rw [nextPriceOf_of_lt hlt]
    exact Nat.sub_le _ _
  · rw [nextPriceOf_self]

/-- From the target on the price is at least the last one. -/
theorem le_nextPriceOf_of_le (h : T ≤ g) : L ≤ nextPriceOf T g L := by
  rcases Nat.lt_or_eq_of_le h with hlt | rfl
  · rw [nextPriceOf_of_gt hlt]
    exact Nat.le_add_right _ _
  · rw [nextPriceOf_self]

variable (hT : 0 < T) (hg : g ≤ 2 * T)
include hT hg

/-- One block moves the price by at most the largest move. -/
theorem nextPriceOf_mem_range :
    L - max 1 (L / 8) ≤ nextPriceOf T g L ∧ nextPriceOf T g L ≤ L + max 1 (L / 8) := by
  rcases lt_trichotomy g T with hlt | rfl | hgt
  · have := priceDelta_le (L := L) hT (show T - g ≤ T by omega)
    rw [nextPriceOf_of_lt hlt]
    omega
  · rw [nextPriceOf_self]
    omega
  · have := priceDelta_le (L := L) hT (show g - T ≤ T by omega)
    rw [nextPriceOf_of_gt hgt]
    omega

end Regions

/-! ## The edges as products -/

/-- `lower_bound` of `estimate_gas_used_boundary`, for a move of `k`. -/
def lowerBound (T L k : Nat) : Nat := if k = 1 then 0 else (k * T * 8 - 1) / L

/-- `upper_bound` of `estimate_gas_used_boundary`, for a move of `k`. -/
def upperBound (T L k : Nat) : Nat := ((k + 1) * T * 8 + L - 1) / L

section Edges

variable {T L k d : Nat} (hT : 0 < T) (hL : L ≠ 0)
include hT hL

/-- Up to the lower edge of a move `k ≥ 2` the move is below `k`. -/
theorem le_lowerBound_iff (hk : 2 ≤ k) : d ≤ lowerBound T L k ↔ d * L < k * T * 8 := by
  have hpos : 0 < k * T := Nat.mul_pos (by omega) hT
  rw [lowerBound, if_neg (by omega), Nat.le_div_iff_mul_le (Nat.pos_of_ne_zero hL)]
  omega

omit hT in
/-- From the upper edge of a move `k` the move is above `k`. -/
theorem upperBound_le_iff : upperBound T L k ≤ d ↔ (k + 1) * T * 8 ≤ d * L := by
  rw [upperBound, Nat.div_le_iff_le_mul_add_pred (Nat.pos_of_ne_zero hL), Nat.mul_comm L d]
  omega

theorem one_le_upperBound : 1 ≤ upperBound T L k := by
  have hpos : 0 < (k + 1) * T := Nat.mul_pos (by omega) hT
  rw [upperBound, Nat.le_div_iff_mul_le (Nat.pos_of_ne_zero hL)]
  omega

/-- A move of at most an eighth of the last price has its lower edge below the target. -/
theorem lowerBound_lt (hk : k ≤ L / 8) : lowerBound T L k < T := by
  unfold lowerBound
  split
  · exact hT
  · have h8 : k * 8 ≤ L := by omega
    have hmul : k * T * 8 ≤ T * L :=
      calc k * T * 8 = T * (k * 8) := by ring
        _ ≤ T * L := Nat.mul_le_mul_left T h8
    have hTL : 0 < T * L := Nat.mul_pos hT (Nat.pos_of_ne_zero hL)
    rw [Nat.div_lt_iff_lt_mul (Nat.pos_of_ne_zero hL)]
    omega

omit hL in
/-- The code's lower edge, in checked arithmetic, is `lowerBound` where its product fits. -/
theorem lowerBound_eval (hk : 1 ≤ k) (hkT : k * T * 8 < 2 ^ 256) :
    (if k = 1 then some 0 else (Checked.mul 256 k T).bind fun a =>
      (Checked.mul 256 a 8).bind fun b => Option.map (fun x => x / L) (Checked.sub b 1)) =
      some (lowerBound T L k) := by
  have hpos : 1 ≤ k * T := Nat.mul_pos (by omega) hT
  unfold lowerBound
  split
  · rfl
  · rw [Checked.mul_of_lt (show k * T < 2 ^ 256 by omega), Option.bind_some,
      Checked.mul_of_lt hkT, Option.bind_some, Checked.sub_of_le (show 1 ≤ k * T * 8 by omega),
      Option.map_some]

omit hT hL in
/-- The lower edge of a move is at most its upper edge. -/
theorem lowerBound_le_upperBound : lowerBound T L k ≤ upperBound T L k := by
  unfold lowerBound upperBound
  split
  · exact Nat.zero_le _
  · have hk1 : (k + 1) * T = k * T + T := Nat.succ_mul k T
    exact Nat.div_le_div_right (by omega)

end Edges

/-! ## The edges bracket the price, case by case -/

section Cases

variable {T L p : Nat} (hT : 0 < T)
include hT

/-- A price beyond the largest move up is above every price of a block. -/
theorem brackets_high (hp : L + max 1 (L / 8) < p) :
    Brackets (nextPriceOf T · L) (2 * T) p (some (2 * T)) none := by
  intro g hg
  have := (nextPriceOf_mem_range (L := L) hT hg).2
  simp only [Option.mem_def, Option.some.injEq, exists_eq_left', reduceCtorEq, false_and,
    exists_false, iff_false]
  omega

/-- A price beyond the largest move down is below every price of a block. -/
theorem brackets_low (hp : p < L - max 1 (L / 8)) :
    Brackets (nextPriceOf T · L) (2 * T) p none (some 0) := by
  intro g hg
  have := (nextPriceOf_mem_range (L := L) hT hg).1
  simp only [Option.mem_def, Option.some.injEq, exists_eq_left', reduceCtorEq, false_and,
    exists_false, iff_false]
  omega

/-- The last price itself is the price of the target alone. -/
theorem brackets_last (hL : L ≠ 0) :
    Brackets (nextPriceOf T · L) (2 * T) L (some (T - 1)) (some (T + 1)) := by
  intro g _
  simp only [Option.mem_def, Option.some.injEq, exists_eq_left']
  rcases lt_trichotomy g T with hlt | rfl | hgt
  · have := one_le_priceDelta (T := T) (d := T - g) (L := L)
    rw [nextPriceOf_of_lt hlt]
    omega
  · rw [nextPriceOf_self]
    omega
  · have := one_le_priceDelta (T := T) (d := g - T) (L := L)
    rw [nextPriceOf_of_gt hgt]
    omega

/-- A price one move up: below it up to the lower edge, above it from the upper edge, which
    is past twice the target when no block reaches it. -/
theorem brackets_up (hL : L ≠ 0) (hp : L < p) :
    Brackets (nextPriceOf T · L) (2 * T) p (some (T + lowerBound T L (p - L)))
      (some (min (T + upperBound T L (p - L)) (2 * T + 1))) := by
  intro g hg
  simp only [Option.mem_def, Option.some.injEq, exists_eq_left', min_le_iff]
  have hub := one_le_upperBound (k := p - L) hT hL
  rcases Nat.lt_or_ge T g with hgt | hle
  · rw [nextPriceOf_of_gt hgt]
    have habove := upperBound_le_iff (T := T) (k := p - L) (d := g - T) hL
    have hmove := lt_priceDelta_iff (k := p - L) (d := g - T) (L := L) hT (by omega)
    refine ⟨?_, by omega⟩
    -- below `p`: a move of one never is, a larger move is below its lower edge
    rcases Nat.lt_or_ge (p - L) 2 with hk | hk
    · have := one_le_priceDelta (T := T) (d := g - T) (L := L)
      rw [lowerBound, if_pos (by omega)]
      omega
    · have hbelow := le_lowerBound_iff (k := p - L) (d := g - T) hT hL hk
      have hmove' := priceDelta_lt_iff (k := p - L) (d := g - T) (L := L) hT hk
      omega
  · have := nextPriceOf_le_of_le (L := L) hle
    omega

/-- A price one move down: below it up to the lower edge, where there is one, above it from
    the upper edge. -/
theorem brackets_down (hL : L ≠ 0) (hp : p < L) (hpM : L - max 1 (L / 8) ≤ p) :
    Brackets (nextPriceOf T · L) (2 * T) p (Checked.sub T (upperBound T L (L - p)))
      (some (T - lowerBound T L (L - p))) := by
  intro g hg
  simp only [Option.mem_def, Option.some.injEq, exists_eq_left', Checked.sub_eq_some_iff]
  have hub := one_le_upperBound (k := L - p) hT hL
  rcases Nat.lt_or_ge g T with hlt | hge
  · rw [nextPriceOf_of_lt hlt]
    have hM := (max_one_le (L := L)).2 hL
    have hpd := priceDelta_le (L := L) hT (show T - g ≤ T by omega)
    have habove := upperBound_le_iff (T := T) (k := L - p) (d := T - g) hL
    have hmove := lt_priceDelta_iff (k := L - p) (d := T - g) (L := L) hT (by omega)
    refine ⟨⟨fun h => ⟨T - upperBound T L (L - p), by omega, by omega⟩, ?_⟩, ?_⟩
    · rintro ⟨x, hx, hgx⟩
      omega
    -- above `p`: a move of one never is, a larger move is below its lower edge
    rcases Nat.lt_or_ge (L - p) 2 with hk | hk
    · have := one_le_priceDelta (T := T) (d := T - g) (L := L)
      rw [lowerBound, if_pos (by omega)]
      omega
    · have hlb := lowerBound_lt (k := L - p) hT hL (by omega)
      have hbelow := le_lowerBound_iff (k := L - p) (d := T - g) hT hL hk
      have hmove' := priceDelta_lt_iff (k := L - p) (d := T - g) (L := L) hT hk
      omega
  · have := le_nextPriceOf_of_le (L := L) hge
    have hlb : lowerBound T L (L - p) ≤ T := by
      unfold lowerBound
      split
      · omega
      · exact Nat.le_of_lt (lowerBound_lt (k := L - p) hT hL (by omega) |>.trans_eq' (by
          rw [lowerBound, if_neg (by omega)]))
    refine ⟨⟨fun h => by omega, ?_⟩, by omega⟩
    rintro ⟨x, hx, hgx⟩
    omega

/-- With a last price of zero the price is zero up to the target and one above it. -/
theorem nextPriceOf_zero {g : Nat} : nextPriceOf T g 0 = if g ≤ T then 0 else 1 := by
  have hone : ∀ d, priceDelta T d 0 = 1 := fun d => by simp [priceDelta_eq]
  rcases lt_trichotomy g T with hlt | rfl | hgt
  · rw [nextPriceOf_of_lt hlt, if_pos hlt.le]
    simp
  · rw [nextPriceOf_self, if_pos le_rfl]
  · rw [nextPriceOf_of_gt hgt, if_neg (by omega), hone]

theorem brackets_zero_zero :
    Brackets (nextPriceOf T · 0) (2 * T) 0 none (some (T + 1)) := by
  intro g _
  simp only [Option.mem_def, Option.some.injEq, exists_eq_left', reduceCtorEq, false_and,
    exists_false, iff_false, nextPriceOf_zero hT]
  split <;> omega

theorem brackets_zero_one :
    Brackets (nextPriceOf T · 0) (2 * T) 1 (some T) (some (2 * T + 1)) := by
  intro g hg
  simp only [Option.mem_def, Option.some.injEq, exists_eq_left', nextPriceOf_zero hT]
  split <;> omega

theorem brackets_zero_high (hp : 2 ≤ p) :
    Brackets (nextPriceOf T · 0) (2 * T) p (some (2 * T)) none := by
  intro g hg
  simp only [Option.mem_def, Option.some.injEq, exists_eq_left', reduceCtorEq, false_and,
    exists_false, iff_false, nextPriceOf_zero hT]
  split <;> omega

end Cases

/-! ## What `estimate_gas_used_boundary` returns, case by case -/

section Evaluation

variable {T L p : Nat} (hT : 0 < T) (hov : Fits T L)
include hT hov

theorem estimateGasUsedBoundary_zero_zero :
    estimateGasUsedBoundary T 0 0 = some (none, some (T + 1)) := by
  have hb := hov.twice hT
  simp only [estimateGasUsedBoundary, if_neg (show T ≠ 0 by omega), if_true,
    Checked.add_of_lt (show T + 1 < 2 ^ 256 by omega), Option.map_some]

theorem estimateGasUsedBoundary_zero_one :
    estimateGasUsedBoundary T 1 0 = some (some T, some (2 * T + 1)) := by
  have hb := hov.twice hT
  simp only [estimateGasUsedBoundary, if_neg (show T ≠ 0 by omega), if_true, one_ne_zero,
    if_false, Checked.mul_of_lt (show T * 2 < 2 ^ 256 by omega), Option.bind_some,
    Checked.add_of_lt (show 2 * T + 1 < 2 ^ 256 by omega), Option.map_some, Nat.mul_comm T 2]

theorem estimateGasUsedBoundary_zero_high (hp : 2 ≤ p) :
    estimateGasUsedBoundary T p 0 = some (some (2 * T), none) := by
  have hb := hov.twice hT
  simp only [estimateGasUsedBoundary, if_neg (show T ≠ 0 by omega), if_true,
    if_neg (show p ≠ 0 by omega), if_neg (show p ≠ 1 by omega),
    Checked.mul_of_lt (show T * 2 < 2 ^ 256 by omega), Option.map_some, Nat.mul_comm T 2]

variable (hL : L ≠ 0)
include hL

/-- The prices one move from `L`, `L ± max(1, L / 8)`, are within `U256`. -/
theorem priceWindow_eq :
    Checked.add 256 L (max 1 (L / 8)) = some (L + max 1 (L / 8)) ∧
      Checked.sub L (max 1 (L / 8)) = some (L - max 1 (L / 8)) := by
  exact ⟨Checked.add_of_lt (hov.window hT hL), Checked.sub_of_le ((max_one_le (L := L)).2 hL)⟩

theorem estimateGasUsedBoundary_high (hp : L + max 1 (L / 8) < p) :
    estimateGasUsedBoundary T p L = some (some (2 * T), none) := by
  have hb := hov.twice hT
  obtain ⟨hup, hlow⟩ := priceWindow_eq hT hov hL
  simp only [estimateGasUsedBoundary, if_neg (show T ≠ 0 by omega), hL, if_false,
    basePriceChangeDenominator_eq, hup, hlow, Option.bind_some, gt_iff_lt, if_pos hp,
    Checked.mul_of_lt (show T * 2 < 2 ^ 256 by omega), Option.map_some, Nat.mul_comm T 2]

theorem estimateGasUsedBoundary_low (hp : p < L - max 1 (L / 8)) :
    estimateGasUsedBoundary T p L = some (none, some 0) := by
  obtain ⟨hup, hlow⟩ := priceWindow_eq hT hov hL
  simp only [estimateGasUsedBoundary, if_neg (show T ≠ 0 by omega), hL, if_false,
    basePriceChangeDenominator_eq, hup, hlow, Option.bind_some, gt_iff_lt,
    if_neg (show ¬ L + max 1 (L / 8) < p by omega), if_pos hp]

theorem estimateGasUsedBoundary_last :
    estimateGasUsedBoundary T L L = some (some (T - 1), some (T + 1)) := by
  have hb := hov.twice hT
  obtain ⟨hup, hlow⟩ := priceWindow_eq hT hov hL
  simp only [estimateGasUsedBoundary, if_neg (show T ≠ 0 by omega), hL, if_false,
    basePriceChangeDenominator_eq, hup, hlow, Option.bind_some, gt_iff_lt,
    if_neg (show ¬ L + max 1 (L / 8) < L by omega), if_neg (show ¬ L < L - max 1 (L / 8) by omega),
    if_true, Checked.sub_of_le (show 1 ≤ T by omega),
    Checked.add_of_lt (show T + 1 < 2 ^ 256 by omega), Option.map_some]

/-- One move up: both edges are past the target, the upper one capped past twice it. -/
theorem estimateGasUsedBoundary_up (hp : L < p) (hpM : p ≤ L + max 1 (L / 8)) :
    estimateGasUsedBoundary T p L = some (some (T + lowerBound T L (p - L)),
      some (min (T + upperBound T L (p - L)) (2 * T + 1))) := by
  have htw := hov.twice hT
  have hM := max_one_le (L := L)
  -- the products the edges form, within `U256`
  obtain ⟨hprod, hquot⟩ := hov.move hT hL (k := p - L) (by omega)
  have hk1 : p - L + 1 ≤ (p - L + 1) * T := Nat.le_mul_of_pos_right _ hT
  have hk1T : (p - L + 1) * T = (p - L) * T + T := Nat.succ_mul _ _
  have hlb : lowerBound T L (p - L) ≤ ((p - L + 1) * T * 8 + L - 1) / L :=
    lowerBound_le_upperBound
  obtain ⟨hup, hlow⟩ := priceWindow_eq hT hov hL
  simp only [estimateGasUsedBoundary, if_neg (show T ≠ 0 by omega), hL, if_false,
    basePriceChangeDenominator_eq, hup, hlow, Option.bind_some, gt_iff_lt,
    if_neg (show ¬ L + max 1 (L / 8) < p by omega), if_neg (show ¬ p < L - max 1 (L / 8) by omega),
    if_neg (show ¬ p = L by omega), if_pos hp, if_neg (show ¬ p - L = 0 by omega), if_true,
    lowerBound_eval (T := T) (L := L) hT (show 1 ≤ p - L by omega) (by omega),
    Checked.add_of_lt (show p - L + 1 < 2 ^ 256 by omega),
    Checked.mul_of_lt (show (p - L + 1) * T < 2 ^ 256 by omega),
    Checked.mul_of_lt (show (p - L + 1) * T * 8 < 2 ^ 256 by omega),
    Checked.add_of_lt (show (p - L + 1) * T * 8 + L < 2 ^ 256 by omega),
    Checked.sub_of_le (show 1 ≤ (p - L + 1) * T * 8 + L by omega), Option.map_some,
    Checked.add_of_lt (show T + lowerBound T L (p - L) < 2 ^ 256 by omega),
    Checked.add_of_lt (show T + ((p - L + 1) * T * 8 + L - 1) / L < 2 ^ 256 by omega),
    Checked.mul_of_lt (show T * 2 < 2 ^ 256 by omega),
    Checked.add_of_lt (show T * 2 + 1 < 2 ^ 256 by omega)]
  rw [Nat.mul_comm T 2]
  rfl

/-- One move down: the upper edge is below the target, and the lower one is where the
    subtraction does not pass zero. -/
theorem estimateGasUsedBoundary_down (hp : p < L) (hpM : L - max 1 (L / 8) ≤ p) :
    estimateGasUsedBoundary T p L = some (Checked.sub T (upperBound T L (L - p)),
      some (T - lowerBound T L (L - p))) := by
  have hM := max_one_le (L := L)
  obtain ⟨hprod, -⟩ := hov.move hT hL (k := L - p) (by omega)
  have hk1 : L - p + 1 ≤ (L - p + 1) * T := Nat.le_mul_of_pos_right _ hT
  have hk1T : (L - p + 1) * T = (L - p) * T + T := Nat.succ_mul _ _
  -- the lower edge of a move of at most an eighth is below the target
  have hlb : lowerBound T L (L - p) ≤ T := by
    unfold lowerBound
    split
    · omega
    · have := lowerBound_lt (k := L - p) hT hL (by omega)
      rw [lowerBound, if_neg (by omega)] at this
      omega
  obtain ⟨hup, hlow⟩ := priceWindow_eq hT hov hL
  simp only [estimateGasUsedBoundary, if_neg (show T ≠ 0 by omega), hL, if_false,
    basePriceChangeDenominator_eq, hup, hlow, Option.bind_some, gt_iff_lt,
    if_neg (show ¬ L + max 1 (L / 8) < p by omega), if_neg (show ¬ p < L - max 1 (L / 8) by omega),
    if_neg (show ¬ p = L by omega), if_neg (show ¬ L < p by omega),
    if_neg (show ¬ L - p = 0 by omega), Bool.false_eq_true,
    lowerBound_eval (T := T) (L := L) hT (show 1 ≤ L - p by omega) (by omega),
    Checked.add_of_lt (show L - p + 1 < 2 ^ 256 by omega),
    Checked.mul_of_lt (show (L - p + 1) * T < 2 ^ 256 by omega),
    Checked.mul_of_lt (show (L - p + 1) * T * 8 < 2 ^ 256 by omega),
    Checked.add_of_lt (show (L - p + 1) * T * 8 + L < 2 ^ 256 by omega),
    Checked.sub_of_le (show 1 ≤ (L - p + 1) * T * 8 + L by omega), Option.map_some,
    Checked.sub_of_le hlb]
  rfl

end Evaluation

/-! ## The boundary inverts the price -/

section Inverse

variable {T L p : Nat}

/-- Under the bound, `estimate_gas_used_boundary` returns edges that bracket `p`, the upper one
    at most one past twice the target. The cases are the code's. -/
theorem estimateGasUsedBoundary_brackets (hT : 0 < T) (hov : Fits T L) :
    ∃ lo up, estimateGasUsedBoundary T p L = some (lo, up) ∧
      Brackets (nextPriceOf T · L) (2 * T) p lo up ∧ ∀ y ∈ up, y ≤ 2 * T + 1 := by
  by_cases hL : L = 0
  · subst hL
    rcases p with _ | _ | p
    · exact ⟨_, _, estimateGasUsedBoundary_zero_zero hT hov, brackets_zero_zero hT,
        by simp only [Option.mem_def, Option.some.injEq, forall_eq']; omega⟩
    · exact ⟨_, _, estimateGasUsedBoundary_zero_one hT hov, brackets_zero_one hT,
        by simp only [Option.mem_def, Option.some.injEq, forall_eq', le_refl]⟩
    · exact ⟨_, _, estimateGasUsedBoundary_zero_high hT hov (by omega),
        brackets_zero_high hT (by omega), by simp⟩
  rcases lt_or_ge (L + max 1 (L / 8)) p with hhigh | hnhigh
  · exact ⟨_, _, estimateGasUsedBoundary_high hT hov hL hhigh, brackets_high hT hhigh, by simp⟩
  rcases lt_or_ge p (L - max 1 (L / 8)) with hlow | hnlow
  · exact ⟨_, _, estimateGasUsedBoundary_low hT hov hL hlow, brackets_low hT hlow,
      by simp only [Option.mem_def, Option.some.injEq, forall_eq']; omega⟩
  rcases lt_trichotomy p L with hdown | rfl | hup
  · exact ⟨_, _, estimateGasUsedBoundary_down hT hov hL hdown hnlow,
      brackets_down hT hL hdown hnlow,
      by simp only [Option.mem_def, Option.some.injEq, forall_eq']; omega⟩
  · exact ⟨_, _, estimateGasUsedBoundary_last hT hov hL, brackets_last hT hL,
      by simp only [Option.mem_def, Option.some.injEq, forall_eq']; omega⟩
  · exact ⟨_, _, estimateGasUsedBoundary_up hT hov hL hup hnhigh, brackets_up hT hL hup,
      by simp only [Option.mem_def, Option.some.injEq, forall_eq']; omega⟩

/-- The bound `gas_target · last_base_price · 8 < 2^256` does not keep the upper edge from
    overflowing, nor does `8 · T · max L 2 < 2^256`: with a last price of one, the edge one
    move up is `T + 16 T`; with a last price of zero, the edge at one is `2 T + 1`. -/
theorem estimateGasUsedBoundary_overflows :
    (2 ^ 252 - 1) * 1 * basePriceChangeDenominator < 2 ^ 256 ∧
      8 * (2 ^ 252 - 1) * max 1 2 < 2 ^ 256 ∧ estimateGasUsedBoundary (2 ^ 252 - 1) 2 1 = none ∧
      2 ^ 255 * 0 * basePriceChangeDenominator < 2 ^ 256 ∧
      estimateGasUsedBoundary (2 ^ 255) 1 0 = none := by
  decide

/-- Under the code's bound `T · L · 8 < 2^256`, and for last prices of one and zero the bounds
    that keep their edges within `U256`, `estimate_gas_used_boundary` is the exact inverse of
    `compute_next_price` on the gas uses `0..2T`: the price is `p` exactly between the edges,
    below it up to the lower one and above it from the upper one. The price is monotone in the
    gas used, and `estimate_max_possible_gas` is the last gas use whose price is at most `p`,
    or zero when there is none. -/
theorem estimateGasUsedBoundary_inverse (gasTarget lastBasePrice p : Nat) (hT : 1 ≤ gasTarget)
    (hov : gasTarget * lastBasePrice * basePriceChangeDenominator < 2 ^ 256)
    (hone : lastBasePrice = 1 → 17 * gasTarget < 2 ^ 256)
    (hzero : lastBasePrice = 0 → 2 * gasTarget < 2 ^ 256) :
    (∃ lo up, estimateGasUsedBoundary gasTarget p lastBasePrice = some (lo, up) ∧
      ∀ g ≤ 2 * gasTarget, ∃ q, computeNextPrice gasTarget g lastBasePrice 0 = some q ∧
        (q = p ↔ lo.elim 0 (· + 1) ≤ g ∧ ∀ y ∈ up, g < y) ∧
        (∀ x ∈ lo, g ≤ x → q < p) ∧ (∀ y ∈ up, y ≤ g → p < q)) ∧
    (∀ minBasePrice g₁ g₂ q₁ q₂, g₁ ≤ g₂ →
      computeNextPrice gasTarget g₁ lastBasePrice minBasePrice = some q₁ →
      computeNextPrice gasTarget g₂ lastBasePrice minBasePrice = some q₂ → q₁ ≤ q₂) ∧
    ∃ m, estimateMaxPossibleGas gasTarget p lastBasePrice = some m ∧ m ≤ 2 * gasTarget ∧
      ((∀ g ≤ 2 * gasTarget, ∀ q, computeNextPrice gasTarget g lastBasePrice 0 = some q →
          (q ≤ p ↔ g ≤ m)) ∨
        (m = 0 ∧ ∀ g ≤ 2 * gasTarget, ∀ q,
          computeNextPrice gasTarget g lastBasePrice 0 = some q → p < q)) := by
  have hfit : Fits gasTarget lastBasePrice := ⟨by simpa using hov, hone, hzero⟩
  obtain ⟨lo, up, heq, hbr, hup⟩ := estimateGasUsedBoundary_brackets (p := p) hT hfit
  -- every gas use within twice the target has the price `nextPriceOf`
  have hnext : ∀ g ≤ 2 * gasTarget, ∀ q,
      computeNextPrice gasTarget g lastBasePrice 0 = some q → q = nextPriceOf gasTarget g lastBasePrice :=
    fun g hg q hq => Option.some.inj (hq.symm.trans (computeNextPrice_eq hT hfit hg))
  refine ⟨⟨lo, up, heq, fun g hg => ⟨_, computeNextPrice_eq hT hfit hg, hbr.eq_iff hg,
      fun x hx hgx => (hbr g hg).1.mpr ⟨x, hx, hgx⟩,
      fun y hy hyg => (hbr g hg).2.mpr ⟨y, hy, hyg⟩⟩⟩,
    fun _ _ _ _ _ h h₁ h₂ => computeNextPrice_mono h h₁ h₂, ?_⟩
  have hb := hfit.twice hT
  -- the last gas use at most `p` is one before the upper edge, or twice the target without one
  rcases up with _ | _ | y
  · refine ⟨gasTarget * 2, ?_, by omega, .inl fun g hg q hq => ?_⟩
    · simp only [estimateMaxPossibleGas, heq, Option.bind_some,
        Checked.mul_of_lt (show gasTarget * 2 < 2 ^ 256 by omega)]
    · rw [hnext g hg q hq, hbr.le_iff hg]
      simp only [Option.mem_def, reduceCtorEq, IsEmpty.forall_iff, forall_const, true_iff]
      omega
  · refine ⟨0, by simp only [estimateMaxPossibleGas, heq, Option.bind_some], by omega,
      .inr ⟨rfl, fun g hg q hq => ?_⟩⟩
    rw [hnext g hg q hq]
    exact (hbr g hg).2.mpr ⟨0, rfl, Nat.zero_le g⟩
  · have hy := hup (y + 1) rfl
    refine ⟨y, by simp only [estimateMaxPossibleGas, heq, Option.bind_some]; rfl, by omega,
      .inl fun g hg q hq => ?_⟩
    rw [hnext g hg q hq, hbr.le_iff hg]
    simp only [Option.mem_def, Option.some.injEq, forall_eq']
    omega

/-- A target of ten and a last price of a hundred, with `p` one move up. -/
theorem estimateGasUsedBoundary_inverse_ten :
    (∃ lo up, estimateGasUsedBoundary 10 112 100 = some (lo, up) ∧
      ∀ g ≤ 2 * 10, ∃ q, computeNextPrice 10 g 100 0 = some q ∧
        (q = 112 ↔ lo.elim 0 (· + 1) ≤ g ∧ ∀ y ∈ up, g < y) ∧
        (∀ x ∈ lo, g ≤ x → q < 112) ∧ (∀ y ∈ up, y ≤ g → 112 < q)) ∧
    (∀ minBasePrice g₁ g₂ q₁ q₂, g₁ ≤ g₂ → computeNextPrice 10 g₁ 100 minBasePrice = some q₁ →
      computeNextPrice 10 g₂ 100 minBasePrice = some q₂ → q₁ ≤ q₂) ∧
    ∃ m, estimateMaxPossibleGas 10 112 100 = some m ∧ m ≤ 2 * 10 ∧
      ((∀ g ≤ 2 * 10, ∀ q, computeNextPrice 10 g 100 0 = some q → (q ≤ 112 ↔ g ≤ m)) ∨
        (m = 0 ∧ ∀ g ≤ 2 * 10, ∀ q, computeNextPrice 10 g 100 0 = some q → 112 < q)) :=
  estimateGasUsedBoundary_inverse 10 100 112 (by decide) (by decide) (by decide) (by decide)

end Inverse

end Mazze.Primitives
