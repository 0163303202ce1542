import Mazze.Lib.Checked

/-!
# Base price

`primitives/src/block_header/base_price.rs`. A block's base price moves from its parent's
by at most an eighth: up when the block uses more gas than the target, down when it uses
less, and by at least one whenever it moves (`compute_next_price`). Gas beyond twice the
target counts as twice the target. `estimate_gas_used_boundary` inverts the rule: which gas
uses give a price below or above a given one.

The price is monotone in the gas used (`computeNextPrice_mono`). A packer that plans the
price of a gas limit, and then uses no more gas than that limit, never gets a higher price.
-/

set_option autoImplicit false

namespace Mazze.Primitives

/-- `BASE_PRICE_CHANGE_DENOMINATOR`. -/
def basePriceChangeDenominator : Nat := 8

/-- `price_delta` of `compute_next_price`: the share `gasDelta / gasTarget` of an eighth of
    the last price, and at least one. -/
def priceDelta (gasTarget gasDelta lastBasePrice : Nat) : Nat :=
  let delta := gasDelta * lastBasePrice / gasTarget / basePriceChangeDenominator
  if delta = 0 then 1 else delta

/-- The `next_base_price` of `compute_next_price`, for the gas use after the cap. -/
def nextBasePrice (gasTarget gasActual lastBasePrice : Nat) : Option Nat :=
  if gasTarget = 0 ∨ gasTarget = gasActual then some lastBasePrice
  else
    let (gasDelta, deltaSign) :=
      if gasActual > gasTarget then (gasActual - gasTarget, true)
      else (gasTarget - gasActual, false)
    -- `assert!(gas_delta <= gas_target)`
    if gasDelta ≤ gasTarget then
      (Checked.mul 256 gasDelta lastBasePrice).bind fun _ =>
        if deltaSign then Checked.add 256 lastBasePrice (priceDelta gasTarget gasDelta lastBasePrice)
        else if lastBasePrice ≠ 0 then
          Checked.sub lastBasePrice (priceDelta gasTarget gasDelta lastBasePrice)
        else some 0
    else none

/-- `compute_next_price`. -/
def computeNextPrice (gasTarget gasActual lastBasePrice minBasePrice : Nat) : Option Nat := do
  let twice ← Checked.mul 256 gasTarget 2
  let gasActual := if gasActual > twice then twice else gasActual
  let next ← nextBasePrice gasTarget gasActual lastBasePrice
  pure (max next minBasePrice)

/-- `estimate_gas_used_boundary`: the largest gas use whose price is below `currentBasePrice`
    and the smallest one whose price is above it, where there are such. -/
def estimateGasUsedBoundary (gasTarget currentBasePrice lastBasePrice : Nat) :
    Option (Option Nat × Option Nat) :=
  if gasTarget = 0 then some (none, some 1)
  else if lastBasePrice = 0 then
    if currentBasePrice = 0 then (Checked.add 256 gasTarget 1).map fun u => (none, some u)
    else if currentBasePrice = 1 then
      (Checked.mul 256 gasTarget 2).bind fun twice =>
        (Checked.add 256 twice 1).map fun u => (some gasTarget, some u)
    else (Checked.mul 256 gasTarget 2).map fun l => (some l, none)
  else
    let maxPriceDelta := max 1 (lastBasePrice / basePriceChangeDenominator)
    (Checked.add 256 lastBasePrice maxPriceDelta).bind fun upperBasePrice =>
    (Checked.sub lastBasePrice maxPriceDelta).bind fun lowerBasePrice =>
    if currentBasePrice > upperBasePrice then
      (Checked.mul 256 gasTarget 2).map fun l => (some l, none)
    else if currentBasePrice < lowerBasePrice then some (none, some 0)
    else if currentBasePrice = lastBasePrice then
      (Checked.sub gasTarget 1).bind fun l =>
        (Checked.add 256 gasTarget 1).map fun u => (some l, some u)
    else
      let (priceDelta, deltaSign) :=
        if currentBasePrice > lastBasePrice then (currentBasePrice - lastBasePrice, true)
        else (lastBasePrice - currentBasePrice, false)
      -- `assert!(!price_delta.is_zero())`
      if priceDelta = 0 then none
      else
        let lowerBound : Option Nat :=
          if priceDelta = 1 then some 0
          else (Checked.mul 256 priceDelta gasTarget).bind fun a =>
            (Checked.mul 256 a basePriceChangeDenominator).bind fun b =>
              (Checked.sub b 1).map (· / lastBasePrice)
        let upperBound : Option Nat :=
          (Checked.add 256 priceDelta 1).bind fun a =>
            (Checked.mul 256 a gasTarget).bind fun b =>
              (Checked.mul 256 b basePriceChangeDenominator).bind fun c =>
                (Checked.add 256 c lastBasePrice).bind fun d =>
                  (Checked.sub d 1).map (· / lastBasePrice)
        lowerBound.bind fun lowerBound => upperBound.bind fun upperBound =>
          if deltaSign then
            (Checked.add 256 gasTarget lowerBound).bind fun l =>
              (Checked.add 256 gasTarget upperBound).bind fun u =>
                (Checked.mul 256 gasTarget 2).bind fun twice =>
                  (Checked.add 256 twice 1).map fun cap => (some l, some (min u cap))
          else
            -- `gas_target.checked_sub(upper_bound)`: no gas use at all when it underflows
            (Checked.sub gasTarget lowerBound).map fun u => (Checked.sub gasTarget upperBound, some u)

/-- `estimate_max_possible_gas`: the largest gas use whose price is not above
    `currentBasePrice`. -/
def estimateMaxPossibleGas (gasTarget currentBasePrice lastBasePrice : Nat) : Option Nat :=
  (estimateGasUsedBoundary gasTarget currentBasePrice lastBasePrice).bind fun
    | (_, none) => Checked.mul 256 gasTarget 2
    | (_, some 0) => some 0
    | (_, some x) => some (x - 1)

/-! ## The price is monotone in the gas used -/

section Monotone

variable {gasTarget lastBasePrice : Nat}

/-- A larger distance from the target moves the price at least as far. -/
theorem priceDelta_mono {d₁ d₂ : Nat} (hd : d₁ ≤ d₂) :
    priceDelta gasTarget d₁ lastBasePrice ≤ priceDelta gasTarget d₂ lastBasePrice := by
  have hdiv : d₁ * lastBasePrice / gasTarget / basePriceChangeDenominator ≤
      d₂ * lastBasePrice / gasTarget / basePriceChangeDenominator :=
    Nat.div_le_div_right (Nat.div_le_div_right (Nat.mul_le_mul_right _ hd))
  simp only [priceDelta]
  split <;> split <;> omega

/-- At the target, or with no target, the price stays. -/
theorem nextBasePrice_of_target {gasActual : Nat} (h : gasTarget = 0 ∨ gasTarget = gasActual) :
    nextBasePrice gasTarget gasActual lastBasePrice = some lastBasePrice := if_pos h

/-- Below the target the price goes down by `priceDelta`, to zero from zero. -/
theorem nextBasePrice_of_lt {gasActual q : Nat} (hlt : gasActual < gasTarget)
    (h : nextBasePrice gasTarget gasActual lastBasePrice = some q) :
    q = lastBasePrice - priceDelta gasTarget (gasTarget - gasActual) lastBasePrice := by
  have hne : ¬ (gasTarget = 0 ∨ gasTarget = gasActual) := by omega
  have hnlt : ¬ gasTarget < gasActual := by omega
  have hle : gasTarget - gasActual ≤ gasTarget := by omega
  simp only [nextBasePrice, hne, hnlt, hle, if_false, if_true, Bool.false_eq_true] at h
  obtain ⟨scaled, -, h⟩ := Option.bind_eq_some_iff.mp h
  split at h
  · obtain ⟨-, rfl⟩ := Checked.sub_eq_some_iff.mp h
    rfl
  · cases h
    omega

/-- Above the target the price goes up by `priceDelta`. -/
theorem nextBasePrice_of_gt {gasActual q : Nat} (ht : gasTarget ≠ 0) (hgt : gasTarget < gasActual)
    (h : nextBasePrice gasTarget gasActual lastBasePrice = some q) :
    q = lastBasePrice + priceDelta gasTarget (gasActual - gasTarget) lastBasePrice := by
  have hne : ¬ (gasTarget = 0 ∨ gasTarget = gasActual) := by omega
  simp only [nextBasePrice, hne, hgt, if_false, if_true] at h
  split at h
  · obtain ⟨scaled, -, h⟩ := Option.bind_eq_some_iff.mp h
    exact ((Checked.add_eq_some_iff.mp h).2).symm
  · cases h

/-- `nextBasePrice` is monotone in the gas used. -/
theorem nextBasePrice_mono {a₁ a₂ q₁ q₂ : Nat} (ha : a₁ ≤ a₂)
    (h₁ : nextBasePrice gasTarget a₁ lastBasePrice = some q₁)
    (h₂ : nextBasePrice gasTarget a₂ lastBasePrice = some q₂) : q₁ ≤ q₂ := by
  -- with no target the price stays
  rcases Nat.eq_zero_or_pos gasTarget with ht | ht
  · rw [nextBasePrice_of_target (.inl ht)] at h₁ h₂
    cases h₁
    cases h₂
    exact Nat.le_refl _
  -- compare each side with the last price, and within a side compare the deltas
  have below : ∀ {a q}, a ≤ gasTarget → nextBasePrice gasTarget a lastBasePrice = some q →
      q ≤ lastBasePrice := by
    intro a q ha h
    rcases Nat.lt_or_eq_of_le ha with hlt | rfl
    · rw [nextBasePrice_of_lt hlt h]
      omega
    · rw [nextBasePrice_of_target (.inr rfl)] at h
      cases h
      exact Nat.le_refl _
  have above : ∀ {a q}, gasTarget ≤ a → nextBasePrice gasTarget a lastBasePrice = some q →
      lastBasePrice ≤ q := by
    intro a q ha h
    rcases Nat.lt_or_eq_of_le ha with hlt | heq
    · rw [nextBasePrice_of_gt (by omega) hlt h]
      omega
    · rw [nextBasePrice_of_target (.inr heq)] at h
      cases h
      exact Nat.le_refl _
  rcases Nat.lt_or_ge a₁ gasTarget with hlt₁ | hge₁
  · rcases Nat.lt_or_ge a₂ gasTarget with hlt₂ | hge₂
    · -- both below: the one further below goes down further
      rw [nextBasePrice_of_lt hlt₁ h₁, nextBasePrice_of_lt hlt₂ h₂]
      have := @priceDelta_mono gasTarget lastBasePrice _ _
        (show gasTarget - a₂ ≤ gasTarget - a₁ by omega)
      omega
    · exact Nat.le_trans (below (Nat.le_of_lt hlt₁) h₁) (above hge₂ h₂)
  · rcases Nat.lt_or_eq_of_le hge₁ with hgt₁ | heq
    · -- both above: the one further above goes up further
      rw [nextBasePrice_of_gt (by omega) hgt₁ h₁,
        nextBasePrice_of_gt (by omega) (Nat.lt_of_lt_of_le hgt₁ ha) h₂]
      have := @priceDelta_mono gasTarget lastBasePrice _ _
        (show a₁ - gasTarget ≤ a₂ - gasTarget by omega)
      omega
    · rw [nextBasePrice_of_target (.inr heq)] at h₁
      cases h₁
      exact above (heq ▸ ha) h₂

/-- `compute_next_price` is monotone in the gas used, wherever it does not panic. -/
theorem computeNextPrice_mono {a₁ a₂ minBasePrice p₁ p₂ : Nat} (ha : a₁ ≤ a₂)
    (h₁ : computeNextPrice gasTarget a₁ lastBasePrice minBasePrice = some p₁)
    (h₂ : computeNextPrice gasTarget a₂ lastBasePrice minBasePrice = some p₂) : p₁ ≤ p₂ := by
  simp only [computeNextPrice, Option.bind_eq_bind, Option.bind_eq_some_iff,
    Checked.mul_eq_some_iff, Option.pure_def, Option.some.injEq] at h₁ h₂
  obtain ⟨twice, ⟨-, rfl⟩, q₁, hq₁, rfl⟩ := h₁
  obtain ⟨_, ⟨-, rfl⟩, q₂, hq₂, rfl⟩ := h₂
  -- the cap at twice the target keeps the order
  have hcap : (if a₁ > gasTarget * 2 then gasTarget * 2 else a₁) ≤
      (if a₂ > gasTarget * 2 then gasTarget * 2 else a₂) := by
    split <;> split <;> omega
  have := nextBasePrice_mono hcap hq₁ hq₂
  omega

end Monotone

end Mazze.Primitives
