import Mathlib
import Mazze.Lib.Checked

/-!
# Storage collateral

`executor/src/state/state_object/collateral.rs` and `overlay_account/collateral.rs`. An
address pays collateral for the storage it occupies, and gets it back when the storage is
released. Both happen at the end of a transaction, in `settle_collateral_for_all`. An
ordinary account pays from its balance. A contract pays from its sponsor's balance for
collateral, and since CIP-107 also from storage points: it spends the sponsor balance first,
then unused points. A refund goes back to points first. The state's `TotalStorage` and
`UsedStoragePoints` follow the token part and the point part.

The executor's state is the function from an address to the account that reads through its
cache (`read_account_lock`, `write_account_or_new_lock`). The account and the global
statistics keep the fields this code reads. A `U256` is a natural number, and every operation
that panics on it is `Checked`.
-/

set_option autoImplicit false

namespace Mazze.Executor

/-- `ONE_MAZZE_IN_MAZZY`. -/
def oneMazzeInMazzy : Nat := 1000000000000000000

/-- `MAZZIES_PER_STORAGE_COLLATERAL_UNIT`. -/
def mazziesPerStorageCollateralUnit : Nat := oneMazzeInMazzy / 1024

/-- What ends an executor call early: a panic, or the `DbError` of a write to an account that
    is not in the database. -/
inductive Fault where
  | panic
  | incompleteDatabase
  deriving DecidableEq, Repr

/-- A panic where a computation returns `none`. -/
def orPanic {α : Type} : Option α → Except Fault α
  | some a => .ok a
  | none => .error .panic

/-- `StoragePoints`. -/
structure StoragePoints where
  unused : Nat
  used : Nat
  deriving DecidableEq, Repr

/-- The fields of `SponsorInfo` that the collateral code reads. -/
structure SponsorInfo where
  sponsorBalanceForCollateral : Nat
  storagePoints : Option StoragePoints
  deriving DecidableEq, Repr

/-- The fields of `OverlayAccount` that the collateral code reads. `hasCode` is
    `code_hash != KECCAK_EMPTY`. -/
structure OverlayAccount where
  balance : Nat
  hasCode : Bool
  isNewlyCreatedContract : Bool
  collateralForStorage : Nat
  sponsorInfo : SponsorInfo
  deriving DecidableEq, Repr

namespace OverlayAccount

/-- `OverlayAccount::new_basic(address, 0)`, the account `write_account_or_new_lock` makes
    where there is none. -/
def newBasic : OverlayAccount := ⟨0, false, false, 0, ⟨0, none⟩⟩

/-- `is_contract`. -/
def isContract (a : OverlayAccount) : Bool := a.hasCode || a.isNewlyCreatedContract

/-- `token_collateral_for_storage`. -/
def tokenCollateralForStorage (a : OverlayAccount) : Nat := a.collateralForStorage

/-- `storage_point_collateral_for_storage`. -/
def storagePointCollateralForStorage (a : OverlayAccount) : Nat :=
  (a.sponsorInfo.storagePoints.map (·.used)).getD 0

/-- `collateral_for_storage()`, the method: the field of that name is only its token part. -/
def totalCollateralForStorage (a : OverlayAccount) : Option Nat :=
  Checked.add 256 a.tokenCollateralForStorage a.storagePointCollateralForStorage

/-- `is_cip_107_initialized`. -/
def isCip107Initialized (a : OverlayAccount) : Bool := a.sponsorInfo.storagePoints.isSome

/-- `sub_balance`: asserts that the balance covers `v`. -/
def subBalance (a : OverlayAccount) (v : Nat) : Option OverlayAccount :=
  if v ≤ a.balance then some { a with balance := a.balance - v } else none

/-- `charge_for_sponsored_collateral`: the sponsor balance first, then unused points. Returns
    the part charged from points. -/
def chargeForSponsoredCollateral (a : OverlayAccount) (v : Nat) :
    Option (Nat × OverlayAccount) := do
  if !a.isContract then none
  let fromBalance := min a.sponsorInfo.sponsorBalanceForCollateral v
  let collateral ← Checked.add 256 a.collateralForStorage fromBalance
  let fromPoints := v - fromBalance
  let points ← if fromPoints = 0 then pure a.sponsorInfo.storagePoints else
    -- `.expect("Storage points should be non-zero")`
    match a.sponsorInfo.storagePoints with
    | none => none
    | some p => do
      let unused ← Checked.sub p.unused fromPoints
      let used ← Checked.add 256 p.used fromPoints
      pure (some ⟨unused, used⟩)
  -- the `min` keeps the sponsor balance from going below zero
  pure (fromPoints, { a with
    collateralForStorage := collateral
    sponsorInfo := ⟨a.sponsorInfo.sponsorBalanceForCollateral - fromBalance, points⟩ })

/-- `refund_for_sponsored_collateral`: used points first, then the sponsor balance. Returns
    the part refunded to points. -/
def refundForSponsoredCollateral (a : OverlayAccount) (v : Nat) :
    Option (Nat × OverlayAccount) := do
  if !a.isContract then none
  let fromPoints := min a.storagePointCollateralForStorage v
  let points ← if fromPoints = 0 then pure a.sponsorInfo.storagePoints else
    match a.sponsorInfo.storagePoints with
    | none => none
    | some p => do
      let unused ← Checked.add 256 p.unused fromPoints
      pure (some ⟨unused, p.used - fromPoints⟩)
  let fromBalance := v - fromPoints
  let sponsorBalance ← Checked.add 256 a.sponsorInfo.sponsorBalanceForCollateral fromBalance
  let collateral ← Checked.sub a.collateralForStorage fromBalance
  pure (fromPoints, { a with
    collateralForStorage := collateral
    sponsorInfo := ⟨sponsorBalance, points⟩ })

/-- `OverlayAccount::add_collateral_for_storage`. Returns the part charged from points. -/
def addCollateralForStorage (a : OverlayAccount) (v : Nat) : Option (Nat × OverlayAccount) :=
  if a.isContract then a.chargeForSponsoredCollateral v
  else do
    let a ← a.subBalance v
    let collateral ← Checked.add 256 a.collateralForStorage v
    pure (0, { a with collateralForStorage := collateral })

/-- `OverlayAccount::sub_collateral_for_storage`: asserts that the token collateral covers
    `v`. Returns the part refunded to points. -/
def subCollateralForStorage (a : OverlayAccount) (v : Nat) : Option (Nat × OverlayAccount) :=
  if v ≤ a.collateralForStorage then
    if a.isContract then a.refundForSponsoredCollateral v
    else do
      let balance ← Checked.add 256 a.balance v
      pure (0, { a with balance := balance, collateralForStorage := a.collateralForStorage - v })
  else none

/-- `OverlayAccount::initialize_cip107`: the share `prop / (10^18 + prop)` of the sponsor
    balance and the collateral becomes storage points, taken from the balance first. The
    part taken from the collateral becomes used points. Returns the two parts. -/
def initializeCip107 (a : OverlayAccount) (prop : Nat) : Option ((Nat × Nat) × OverlayAccount) := do
  if !a.isContract then none
  let totalCollateral ← Checked.add 256 a.sponsorInfo.sponsorBalanceForCollateral
    a.collateralForStorage
  let scaled ← Checked.mul 256 totalCollateral prop
  let denominator ← Checked.add 256 oneMazzeInMazzy prop
  let changedStoragePoints := scaled / denominator
  let fromBalance := min a.sponsorInfo.sponsorBalanceForCollateral changedStoragePoints
  let fromCollateral := changedStoragePoints - fromBalance
  let (collateral, points) ← if fromCollateral = 0 then
      pure (a.collateralForStorage, (⟨changedStoragePoints, 0⟩ : StoragePoints))
    else do
      let collateral ← Checked.sub a.collateralForStorage fromCollateral
      let unused ← Checked.sub changedStoragePoints fromCollateral
      pure (collateral, ⟨unused, fromCollateral⟩)
  pure ((fromBalance, fromCollateral), { a with
    collateralForStorage := collateral
    sponsorInfo := ⟨a.sponsorInfo.sponsorBalanceForCollateral - fromBalance, some points⟩ })

end OverlayAccount

/-- The global statistics the collateral code writes. -/
structure GlobalStat where
  totalIssued : Nat
  totalStorage : Nat
  usedStoragePoints : Nat
  convertedStoragePoints : Nat
  deriving DecidableEq, Repr

/-- The executor's `State` as the collateral code sees it. `storagePointProp` is what
    `storage_point_prop()` reads from system storage. -/
structure State (A : Type) where
  accounts : A → Option OverlayAccount
  globalStat : GlobalStat
  storagePointProp : Nat

/-- `Substate`'s collateral changes, in units: `storage_collateralized` and
    `storage_released` as association lists. -/
structure Substate (A : Type) where
  storageCollateralized : List (A × Nat)
  storageReleased : List (A × Nat)
  deriving DecidableEq, Repr

/-- `CollateralCheckError::NotEnoughBalance`. -/
inductive CollateralCheckError where
  | notEnoughBalance (required got : Nat)
  deriving DecidableEq, Repr

variable {A : Type} [DecidableEq A]

namespace Substate

/-- `get_collateral_change`: the net units occupied and released. -/
def getCollateralChange (sub : Substate A) (addr : A) : Nat × Nat :=
  let inc := (sub.storageCollateralized.lookup addr).getD 0
  let released := (sub.storageReleased.lookup addr).getD 0
  if inc > released then (inc - released, 0) else (0, released - inc)

/-- `keys_for_collateral_changed`, in the order of the lists. The source iterates a
    `HashSet`, in an order it does not fix. -/
def keysForCollateralChanged (sub : Substate A) : List A :=
  (sub.storageCollateralized.map Prod.fst ++ sub.storageReleased.map Prod.fst).dedup

end Substate

namespace State

/-- The account at `addr` after a write. -/
def setAccount (s : State A) (addr : A) (acc : OverlayAccount) : State A :=
  { s with accounts := Function.update s.accounts addr (some acc) }

/-- A read of an account field through `try_loaded!`: the default where there is no account. -/
def readAccount {β : Type} (s : State A) (addr : A) (f : OverlayAccount → β) (d : β) : β :=
  ((s.accounts addr).map f).getD d

/-- `State::token_collateral_for_storage`. -/
def tokenCollateralForStorage (s : State A) (addr : A) : Nat :=
  s.readAccount addr OverlayAccount.tokenCollateralForStorage 0

/-- `State::sponsor_balance_for_collateral`. -/
def sponsorBalanceForCollateral (s : State A) (addr : A) : Nat :=
  s.readAccount addr (·.sponsorInfo.sponsorBalanceForCollateral) 0

/-- `State::available_storage_points_for_collateral`. -/
def availableStoragePointsForCollateral (s : State A) (addr : A) : Nat :=
  s.readAccount addr (fun a => (a.sponsorInfo.storagePoints.map (·.unused)).getD 0) 0

/-- `State::balance`. -/
def balance (s : State A) (addr : A) : Nat := s.readAccount addr (·.balance) 0

/-- `State::is_contract_with_code` on a native address: `false` for an address whose type
    bits are not a contract's. -/
def isContractWithCode (isContractAddress : A → Bool) (s : State A) (addr : A) : Bool :=
  isContractAddress addr && s.readAccount addr (·.hasCode) false

/-- `State::add_collateral_for_storage`. The write lock fails on an account that is not
    there. -/
def addCollateralForStorage (s : State A) (addr : A) (v : Nat) : Except Fault (Nat × State A) :=
  if v = 0 then pure (0, s) else
  match s.accounts addr with
  | none => throw .incompleteDatabase
  | some acc => do
    let (storagePointsUsed, acc) ← orPanic (acc.addCollateralForStorage v)
    let tokens ← orPanic (Checked.sub v storagePointsUsed)
    let totalStorage ← orPanic (Checked.add 256 s.globalStat.totalStorage tokens)
    let usedStoragePoints ← orPanic
      (Checked.add 256 s.globalStat.usedStoragePoints storagePointsUsed)
    pure (storagePointsUsed, { s.setAccount addr acc with
      globalStat := { s.globalStat with totalStorage, usedStoragePoints } })

/-- The refund in `State::sub_collateral_for_storage`: the account's
    `sub_collateral_for_storage` through `write_account_or_new_lock`, unless there is
    nothing to refund. -/
def refundCollateral (s : State A) (addr : A) (refundable : Nat) : Except Fault (Nat × State A) :=
  if refundable ≠ 0 then do
    let acc := (s.accounts addr).getD OverlayAccount.newBasic
    let (refund, acc) ← orPanic (acc.subCollateralForStorage refundable)
    pure (refund, s.setAccount addr acc)
  else pure (0, s)

/-- `State::sub_collateral_for_storage`. Only the token collateral is refundable here; the
    rest of `v` is burnt. -/
def subCollateralForStorage (s : State A) (addr : A) (v : Nat) : Except Fault (Nat × State A) :=
  if v = 0 then pure (0, s) else do
  let collateral := s.tokenCollateralForStorage addr
  let refundable := if v > collateral then collateral else v
  let burnt := v - refundable
  let (storagePointsRefund, s) ← s.refundCollateral addr refundable
  let tokens ← orPanic (Checked.sub v storagePointsRefund)
  let totalStorage ← orPanic (Checked.sub s.globalStat.totalStorage tokens)
  let usedStoragePoints ← orPanic
    (Checked.sub s.globalStat.usedStoragePoints storagePointsRefund)
  -- `sub_total_issued` saturates
  pure (storagePointsRefund, { s with globalStat := { s.globalStat with
    totalStorage, usedStoragePoints, totalIssued := s.globalStat.totalIssued - burnt } })

/-- `State::add_converted_storage_point`. -/
def addConvertedStoragePoint (s : State A) (fromBalance fromCollateral : Nat) :
    Except Fault (State A) := do
  let converted ← orPanic (Checked.add 256 fromBalance fromCollateral)
  let totalIssued ← orPanic (Checked.sub s.globalStat.totalIssued converted)
  let totalStorage ← orPanic (Checked.sub s.globalStat.totalStorage fromCollateral)
  let usedStoragePoints ← orPanic
    (Checked.add 256 s.globalStat.usedStoragePoints fromCollateral)
  let convertedStoragePoints ← orPanic
    (Checked.add 256 s.globalStat.convertedStoragePoints converted)
  pure { s with globalStat :=
    { totalIssued, totalStorage, usedStoragePoints, convertedStoragePoints } }

/-- `State::initialize_cip107`. The write lock makes an account where there is none, before
    the checks that return early. -/
def initializeCip107 (s : State A) (addr : A) : Except Fault ((Nat × Nat) × State A) := do
  let prop := s.storagePointProp
  let acc := (s.accounts addr).getD OverlayAccount.newBasic
  let s := s.setAccount addr acc
  if !acc.isContract then return ((0, 0), s)
  if acc.isCip107Initialized then return ((0, 0), s)
  let ((fromBalance, fromCollateral), acc) ← orPanic (acc.initializeCip107 prop)
  let s ← (s.setAccount addr acc).addConvertedStoragePoint fromBalance fromCollateral
  pure ((fromBalance, fromCollateral), s)

end State

section Settle

variable (isContractAddress : A → Bool)

/-- `settle_collateral_for_address` with `dry_run` and the spec's `cip107` flag. -/
def settleCollateralForAddress (s : State A) (addr : A) (substate : Substate A)
    (cip107 dryRun : Bool) : Except Fault (Except CollateralCheckError Unit × State A) := do
  let (incCollaterals, subCollaterals) := substate.getCollateralChange addr
  let inc ← orPanic (Checked.mul 256 mazziesPerStorageCollateralUnit incCollaterals)
  let sub ← orPanic (Checked.mul 256 mazziesPerStorageCollateralUnit subCollaterals)
  let isContract := s.isContractWithCode isContractAddress addr
  let s ← if cip107 && isContractAddress addr && (sub ≠ 0 || inc ≠ 0) then
      Prod.snd <$> s.initializeCip107 addr
    else pure s
  let s ← if sub ≠ 0 then Prod.snd <$> s.subCollateralForStorage addr sub else pure s
  if inc ≠ 0 && !dryRun then
    let balance ← if isContract then
        orPanic (Checked.add 256 (s.sponsorBalanceForCollateral addr)
          (s.availableStoragePointsForCollateral addr))
      else pure (s.balance addr)
    -- the sponsor balance does not cover the storage taken
    if inc > balance then return (.error (.notEnoughBalance inc balance), s)
    let s ← Prod.snd <$> s.addCollateralForStorage addr inc
    pure (.ok (), s)
  else pure (.ok (), s)

/-- The loop of `settle_collateral_for_all` over `addrs`: it stops at the first address whose
    check fails. -/
def settleCollateralFor (substate : Substate A) (cip107 dryRun : Bool) :
    State A → List A → Except Fault (Except CollateralCheckError Unit × State A)
  | s, [] => pure (.ok (), s)
  | s, addr :: addrs => do
    let (res, s) ← settleCollateralForAddress isContractAddress s addr substate cip107 dryRun
    match res with
    | .error e => pure (.error e, s)
    | .ok () => settleCollateralFor substate cip107 dryRun s addrs

/-- `settle_collateral_for_all`. -/
def settleCollateralForAll (s : State A) (substate : Substate A) (cip107 dryRun : Bool) :
    Except Fault (Except CollateralCheckError Unit × State A) :=
  settleCollateralFor isContractAddress substate cip107 dryRun s substate.keysForCollateralChanged

end Settle

end Mazze.Executor
