import Mazze.Executor.Collateral
import Mazze.Lib.Except

/-!
# What storage collateral is meant to keep

An address that occupies `n` units of storage has `n` times
`MAZZIES_PER_STORAGE_COLLATERAL_UNIT` of collateral, in tokens and in used storage points
(`CollateralCovers`). `TotalStorage` is the sum of the token parts, and `UsedStoragePoints`
the sum of the point parts (`TotalsAgree`). The units each address occupies are not part of
the state: the substates of the transactions say how they change.

`State::sub_collateral_for_storage` refunds no more than the token part, and burns the rest
(`subCollateralForStorage_totalIssued`). A contract that paid for its storage partly in
storage points therefore loses tokens when it releases storage that points paid for.
-/

set_option autoImplicit false

namespace Mazze.Executor

variable {A : Type} [DecidableEq A]

namespace State

/-- Every account's collateral is what the units it occupies cost. -/
def CollateralCovers (s : State A) (occupied : A → Nat) : Prop :=
  ∀ addr, ∀ acc ∈ s.accounts addr,
    acc.tokenCollateralForStorage + acc.storagePointCollateralForStorage =
      mazziesPerStorageCollateralUnit * occupied addr

instance [Fintype A] (s : State A) (occupied : A → Nat) : Decidable (s.CollateralCovers occupied) :=
  inferInstanceAs (Decidable (∀ addr, ∀ acc ∈ s.accounts addr, _))

/-- The global statistics are the sums of the accounts' parts. -/
def TotalsAgree [Fintype A] (s : State A) : Prop :=
  s.globalStat.totalStorage = ∑ addr, s.tokenCollateralForStorage addr ∧
    s.globalStat.usedStoragePoints =
      ∑ addr, s.readAccount addr OverlayAccount.storagePointCollateralForStorage 0

instance [Fintype A] (s : State A) : Decidable s.TotalsAgree :=
  inferInstanceAs (Decidable (_ ∧ _))

/-- A write to an account keeps the global statistics. -/
@[simp] theorem setAccount_globalStat (s : State A) (addr : A) (acc : OverlayAccount) :
    (s.setAccount addr acc).globalStat = s.globalStat := rfl

/-- The refund writes the account only. -/
theorem refundCollateral_globalStat {s s' : State A} {addr : A} {v r : Nat}
    (h : s.refundCollateral addr v = .ok (r, s')) : s'.globalStat = s.globalStat := by
  unfold refundCollateral at h
  split at h
  · obtain ⟨⟨refund, acc⟩, -, h⟩ := Except.bind_eq_ok h
    cases h
    rfl
  · cases h
    rfl

/-- `sub_collateral_for_storage` burns the part of `v` beyond the token collateral: it lowers
    `TotalIssued` by that much. -/
theorem subCollateralForStorage_totalIssued {s s' : State A} {addr : A} {v r : Nat}
    (h : s.subCollateralForStorage addr v = .ok (r, s')) :
    s'.globalStat.totalIssued = s.globalStat.totalIssued - (v - s.tokenCollateralForStorage addr) := by
  unfold subCollateralForStorage at h
  split at h
  · -- nothing to release
    cases h
    simp [*]
  · obtain ⟨⟨refund, s₁⟩, hs₁, h⟩ := Except.bind_eq_ok h
    obtain ⟨tokens, -, h⟩ := Except.bind_eq_ok h
    obtain ⟨totalStorage, -, h⟩ := Except.bind_eq_ok h
    obtain ⟨usedStoragePoints, -, h⟩ := Except.bind_eq_ok h
    cases h
    simp only [refundCollateral_globalStat hs₁]
    split <;> omega

end State

/-! ## Releasing storage that points paid for -/

/-- A contract with code whose sponsor holds one unit of collateral, and which holds one unit
    of unused storage points: CIP-107 is initialized. -/
def sponsoredContract : OverlayAccount :=
  ⟨0, true, false, 0,
    ⟨mazziesPerStorageCollateralUnit, some ⟨mazziesPerStorageCollateralUnit, 0⟩⟩⟩

/-- The contract alone at address `true`, before it occupies any storage. The addresses are
    `Bool`s, and `true` is the one with a contract's type bits. -/
def sponsoredState : State Bool :=
  ⟨fun addr => if addr then some sponsoredContract else none,
    ⟨oneMazzeInMazzy, 0, 0, mazziesPerStorageCollateralUnit⟩, 0⟩

/-- A transaction that occupies two units for the contract. -/
def occupyTwo : Substate Bool := ⟨[(true, 2)], []⟩

/-- A transaction that releases them. -/
def releaseTwo : Substate Bool := ⟨[], [(true, 2)]⟩

/-- The contract pays for two units with its sponsor balance and its points, one unit each,
    and everything still agrees. When it releases both, only the token unit is refundable:
    the used points go back, the token collateral stays with the contract, `TotalStorage`
    drops to zero, and one unit is burnt. With or without CIP-107. -/
theorem settleCollateralForAll_burns_point_backed_release (cip107 : Bool) :
    sponsoredState.CollateralCovers (fun _ => 0) ∧ sponsoredState.TotalsAgree ∧
      ∃ s₁ s₂, settleCollateralForAll id sponsoredState occupyTwo cip107 false = .ok (.ok (), s₁) ∧
        s₁.CollateralCovers (fun addr => if addr then 2 else 0) ∧ s₁.TotalsAgree ∧
        settleCollateralForAll id s₁ releaseTwo cip107 false = .ok (.ok (), s₂) ∧
        ¬ s₂.CollateralCovers (fun _ => 0) ∧ ¬ s₂.TotalsAgree ∧
        s₂.globalStat.totalIssued + mazziesPerStorageCollateralUnit =
          s₁.globalStat.totalIssued := by
  -- both settlements, seen through what the statement asks of them
  have hrun : (settleCollateralForAll id sponsoredState occupyTwo cip107 false >>= fun r₁ =>
      (settleCollateralForAll id r₁.2 releaseTwo cip107 false).map fun r₂ =>
        decide (r₁.1 = .ok () ∧ (r₁.2.CollateralCovers fun addr => if addr then 2 else 0) ∧
          r₁.2.TotalsAgree ∧ r₂.1 = .ok () ∧ ¬ (r₂.2.CollateralCovers fun _ => 0) ∧
          ¬ r₂.2.TotalsAgree ∧
          r₂.2.globalStat.totalIssued + mazziesPerStorageCollateralUnit =
            r₁.2.globalStat.totalIssued)) = .ok true := by
    cases cip107 <;> decide +kernel
  obtain ⟨⟨res₁, s₁⟩, h₁, hrest⟩ := Except.bind_eq_ok hrun
  obtain ⟨⟨res₂, s₂⟩, h₂, hview⟩ := Except.map_eq_ok hrest
  obtain ⟨rfl, hcovers₁, htotals₁, rfl, hcovers₂, htotals₂, hburnt⟩ := of_decide_eq_true hview
  exact ⟨by decide, by decide, s₁, s₂, h₁, hcovers₁, htotals₁, h₂, hcovers₂, htotals₂, hburnt⟩

end Mazze.Executor
