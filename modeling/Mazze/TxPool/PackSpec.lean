import Mazze.TxPool.Pack
import Mazze.Packing.Invariant

/-!
# Packing stays within its plan

`pack_transactions_1559` checks, in each space, that the base price recomputed from the gas
the sampler used is within the price it planned, and the code marks the other branch
unreachable. It is. The sampler's loops only ever take gas from what is left of the planned
limit, so the gas used is at most that limit (`packingSampler_spec`). The base price is
monotone in the gas used (`computeNextPrice_mono`). So the recomputed price is at most the
planned one, which every packed transaction pays (`packSpace1559_withinPlan`).
-/

set_option autoImplicit false

namespace Mazze.TxPool

open Mazze.Packing Mazze.Primitives PackingPoolTransaction

variable {TX Sender : Type} [PackingPoolTransaction TX Sender]

/-! ## The sampler's loops -/

/-- What `packing_sampler`'s loops keep: the packed transactions pay the minimum price, and
    their gas together with the gas left is within the limit. -/
def SamplerState.Within (txMinPrice blockGasLimit : Nat) (st : SamplerState TX) : Prop :=
  (∀ tx ∈ st.toPackTxs, txMinPrice ≤ gasPrice tx) ∧
    (st.toPackTxs.map gasLimit).sum + st.restGasLimit ≤ blockGasLimit

section Within

variable {txMinPrice blockGasLimit : Nat} {st : SamplerState TX}

/-- A state with the same packed transactions and no more gas left keeps the bound. -/
theorem SamplerState.Within.of_rest_le (hw : st.Within txMinPrice blockGasLimit)
    {st' : SamplerState TX} (hpack : st'.toPackTxs = st.toPackTxs)
    (hrest : st'.restGasLimit ≤ st.restGasLimit) : st'.Within txMinPrice blockGasLimit := by
  obtain ⟨hprice, hsum⟩ := hw
  refine ⟨hpack ▸ hprice, ?_⟩
  rw [hpack]
  omega

/-- Packing a transaction that pays the minimum price, with its gas taken from what is left,
    keeps the bound. -/
theorem SamplerState.Within.pack (hw : st.Within txMinPrice blockGasLimit) {tx : TX}
    (hprice : txMinPrice ≤ gasPrice tx) (hgas : gasLimit tx ≤ st.restGasLimit)
    {st' : SamplerState TX} (hpack : st'.toPackTxs = st.toPackTxs ++ [tx])
    (hrest : st'.restGasLimit = st.restGasLimit - gasLimit tx) :
    st'.Within txMinPrice blockGasLimit := by
  obtain ⟨hprices, hsum⟩ := hw
  refine ⟨?_, ?_⟩
  · intro tx' htx'
    rw [hpack] at htx'
    rcases List.mem_append.mp htx' with hold | hnew
    · exact hprices tx' hold
    · rw [List.mem_singleton.mp hnew]
      exact hprice
  · rw [hpack, hrest, List.map_append, List.sum_append, List.map_singleton, List.sum_singleton]
    omega

end Within

section Loops

variable (rlpSize : TX → Nat) (txNumLimit txMinPrice : Nat) (validity : TX → PackingCheckResult)
  {blockGasLimit : Nat}

/-- One sender's loop keeps `Within`. The induction is on the sender's transactions; each
    case is one way the loop body can end. -/
theorem packSenderTxs_within {st st' : SamplerState TX} {txs : List TX} {e : LoopExit}
    (hw : st.Within txMinPrice blockGasLimit)
    (h : packSenderTxs rlpSize txNumLimit txMinPrice validity st txs = some (e, st')) :
    st'.Within txMinPrice blockGasLimit := by
  induction txs generalizing st with
  | nil =>
    cases h
    exact hw
  | cons tx txs ih =>
    simp only [packSenderTxs] at h
    by_cases hprice : gasPrice tx < txMinPrice
    · -- below the minimum price: on to the next sender
      rw [if_pos hprice] at h
      cases h
      exact hw
    rw [if_neg hprice] at h
    cases hv : validity tx with
    | pending =>
      simp only [hv] at h
      cases h
      exact hw
    | drop =>
      -- only the list of drops grows
      simp only [hv] at h
      cases h
      exact hw
    | pack =>
      simp only [hv] at h
      by_cases hgas : gasLimit tx > st.restGasLimit
      · -- too much gas: the threshold may grow, nothing else changes
        rw [if_pos hgas] at h
        split at h
        · obtain ⟨m, -, h⟩ := Option.map_eq_some_iff.mp h
          cases h
          exact hw
        · cases h
          exact hw
      rw [if_neg hgas] at h
      by_cases hsize : rlpSize tx > st.restSizeLimit
      · -- too large: the gas is taken all the same
        rw [if_pos hsize] at h
        have htaken : SamplerState.Within txMinPrice blockGasLimit
            { st with restGasLimit := st.restGasLimit - gasLimit tx } :=
          hw.of_rest_le rfl (Nat.sub_le _ _)
        split at h
        · obtain ⟨m, -, h⟩ := Option.map_eq_some_iff.mp h
          cases h
          exact htaken
        · cases h
          exact htaken
      rw [if_neg hsize] at h
      have hpacked : SamplerState.Within txMinPrice blockGasLimit
          { st with
            restGasLimit := st.restGasLimit - gasLimit tx
            restSizeLimit := st.restSizeLimit - rlpSize tx
            toPackTxs := st.toPackTxs ++ [tx] } :=
        hw.pack (Nat.le_of_not_lt hprice) (Nat.le_of_not_lt hgas) rfl rfl
      split at h
      · cases h
        exact hpacked
      · exact ih hpacked h

/-- The sampler's loop keeps `Within`, over everything the sampler yields. -/
theorem packSenders_within {st st' : SamplerState TX} {sampled : List (SampleItem TX Sender)}
    (hw : st.Within txMinPrice blockGasLimit)
    (h : packSenders rlpSize txNumLimit txMinPrice validity st sampled = some st') :
    st'.Within txMinPrice blockGasLimit := by
  induction sampled generalizing st with
  | nil =>
    cases h
    exact hw
  | cons item sampled ih =>
    obtain ⟨addr, senderTxs, tag⟩ := item
    obtain ⟨⟨e, st₁⟩, h₁, h⟩ := Option.bind_eq_some_iff.mp h
    have hw₁ := packSenderTxs_within rlpSize txNumLimit txMinPrice validity hw h₁
    cases e with
    | all =>
      cases h
      exact hw₁
    | sender => exact ih hw₁ h

end Loops

variable [LinearOrder Sender] [Inhabited TX]

namespace DeferredPool

variable (nthInvRoot : Nat → Nat → Nat) (rlpSize : TX → Nat)

/-- `packing_sampler` packs only transactions that pay the minimum price, and reports at
    least their gas and at most its gas limit as used. -/
theorem packingSampler_spec {p p' : DeferredPool TX Sender} {space : Space}
    {blockGasLimit blockSizeLimit txNumLimit txMinPrice : Nat}
    {validity : TX → PackingCheckResult} {sampled : List (SampleItem TX Sender)}
    {txs : List TX} {usedGas usedSize : Nat}
    (h : p.packingSampler nthInvRoot rlpSize space blockGasLimit blockSizeLimit txNumLimit
      txMinPrice validity sampled = some ((txs, usedGas, usedSize), p')) :
    (∀ tx ∈ txs, txMinPrice ≤ gasPrice tx) ∧ (txs.map gasLimit).sum ≤ usedGas ∧
      usedGas ≤ blockGasLimit := by
  unfold packingSampler at h
  split at h
  · -- a limit is zero: nothing packed
    cases h
    simp
  · obtain ⟨st, hst, h⟩ := Option.bind_eq_some_iff.mp h
    obtain ⟨pool, -, h⟩ := Option.map_eq_some_iff.mp h
    cases h
    have hstart : (⟨[], [], 21000, 80, blockSizeLimit, blockGasLimit⟩ : SamplerState TX).Within
        txMinPrice blockGasLimit := ⟨by simp, by simp⟩
    obtain ⟨hprice, hgas⟩ := packSenders_within rlpSize txNumLimit txMinPrice validity hstart hst
    exact ⟨hprice, by omega, by omega⟩

/-- The plan: the pool's estimate capped at twice the target, and the price of that gas. -/
theorem estimatePackingGasLimit_spec {p : DeferredPool TX Sender} {space : Space}
    {gasTarget parentBasePrice minBasePrice packingGasLimit txMinPrice : Nat}
    (h : p.estimatePackingGasLimit space gasTarget parentBasePrice minBasePrice =
      some (packingGasLimit, txMinPrice)) :
    ∃ est, (p.packingPool space).estimatePackingGasLimit gasTarget parentBasePrice minBasePrice =
        some est ∧ packingGasLimit = min (gasTarget * 2) est ∧
      computeNextPrice gasTarget packingGasLimit parentBasePrice minBasePrice = some txMinPrice := by
  simp only [estimatePackingGasLimit, Option.bind_eq_bind, Option.bind_eq_some_iff,
    Checked.mul_eq_some_iff, Option.pure_def, Option.some.injEq, Prod.mk.injEq] at h
  obtain ⟨est, hest, twice, ⟨-, rfl⟩, price, hprice, rfl, rfl⟩ := h
  exact ⟨est, hest, rfl, hprice⟩

/-- One space's result as the plan made from the pool allows. The transactions are what the
    sampler packs under the plan. The base price is recomputed from the gas the sampler
    reports, and it is at most the planned price. Every transaction pays it, and together
    they use at most the planned gas limit: the pool's estimate, capped at twice the target. -/
def PackedWithinPlan (p : DeferredPool TX Sender) (space : Space)
    (gasTarget parentBasePrice minBasePrice sizeLimit numTxs : Nat)
    (validity : TX → PackingCheckResult) (sampled : List (SampleItem TX Sender))
    (txs : List TX) (basePrice : Nat) : Prop :=
  ∃ est txMinPrice usedGas usedSize, ∃ p' : DeferredPool TX Sender,
    (p.packingPool space).estimatePackingGasLimit gasTarget parentBasePrice minBasePrice =
      some est ∧
    computeNextPrice gasTarget (min (gasTarget * 2) est) parentBasePrice minBasePrice =
      some txMinPrice ∧
    p.packingSampler nthInvRoot rlpSize space (min (gasTarget * 2) est) sizeLimit numTxs
      txMinPrice validity sampled = some ((txs, usedGas, usedSize), p') ∧
    computeNextPrice gasTarget usedGas parentBasePrice minBasePrice = some basePrice ∧
    basePrice ≤ txMinPrice ∧ (∀ tx ∈ txs, basePrice ≤ gasPrice tx) ∧
    (txs.map gasLimit).sum ≤ min (gasTarget * 2) est

/-- Each space's block of `pack_transactions_1559` returns what the plan allows: the branch
    the code marks unreachable is never taken. -/
theorem packSpace1559_withinPlan {p p' : DeferredPool TX Sender} {space : Space}
    {gasTarget parentBasePrice minBasePrice sizeLimit numTxs : Nat}
    {validity : TX → PackingCheckResult} {sampled : List (SampleItem TX Sender)}
    {txs : List TX} {basePrice usedSize : Nat}
    (h : p.packSpace1559 nthInvRoot rlpSize space gasTarget parentBasePrice minBasePrice sizeLimit
      numTxs validity sampled = some ((txs, basePrice, usedSize), p')) :
    PackedWithinPlan nthInvRoot rlpSize p space gasTarget parentBasePrice minBasePrice sizeLimit
      numTxs validity sampled txs basePrice := by
  simp only [packSpace1559, Option.bind_eq_bind, Option.bind_eq_some_iff] at h
  obtain ⟨⟨packingGasLimit, txMinPrice⟩, hplan, ⟨⟨sampledTx, usedGas, usedSize'⟩, p₁⟩, hsample,
    recomputed, hprice, h⟩ := h
  obtain ⟨est, hest, rfl, hmin⟩ := estimatePackingGasLimit_spec hplan
  obtain ⟨hpays, hsum, hused⟩ := packingSampler_spec nthInvRoot rlpSize hsample
  -- the gas used is within the planned limit, so its price is within the planned price
  have hle : recomputed ≤ txMinPrice := computeNextPrice_mono hused hprice hmin
  rw [if_pos hle] at h
  cases h
  exact ⟨est, txMinPrice, usedGas, _, p₁, hest, hmin, hsample, hprice, hle,
    fun tx htx => Nat.le_trans hle (hpays tx htx), Nat.le_trans hsum hused⟩

/-- The sampler of one space leaves the other space's packing pool as it was. -/
theorem packingSampler_packingPool_other {p p' : DeferredPool TX Sender} {space other : Space}
    {blockGasLimit blockSizeLimit txNumLimit txMinPrice : Nat}
    {validity : TX → PackingCheckResult} {sampled : List (SampleItem TX Sender)}
    {r : List TX × Nat × Nat} (hother : other ≠ space)
    (h : p.packingSampler nthInvRoot rlpSize space blockGasLimit blockSizeLimit txNumLimit
      txMinPrice validity sampled = some (r, p')) :
    p'.packingPool other = p.packingPool other := by
  unfold packingSampler at h
  split at h
  · cases h
    rfl
  · obtain ⟨st, -, h⟩ := Option.bind_eq_some_iff.mp h
    obtain ⟨pool, -, h⟩ := Option.map_eq_some_iff.mp h
    cases h
    exact if_neg hother

/-- One space's block leaves the other space's packing pool as it was. -/
theorem packSpace1559_packingPool_other {p p' : DeferredPool TX Sender} {space other : Space}
    {gasTarget parentBasePrice minBasePrice sizeLimit numTxs : Nat}
    {validity : TX → PackingCheckResult} {sampled : List (SampleItem TX Sender)}
    {r : List TX × Nat × Nat} (hother : other ≠ space)
    (h : p.packSpace1559 nthInvRoot rlpSize space gasTarget parentBasePrice minBasePrice sizeLimit
      numTxs validity sampled = some (r, p')) :
    p'.packingPool other = p.packingPool other := by
  simp only [packSpace1559, Option.bind_eq_bind, Option.bind_eq_some_iff] at h
  obtain ⟨plan, -, ⟨res, p₁⟩, hsample, recomputed, -, h⟩ := h
  have hp₁ := packingSampler_packingPool_other nthInvRoot rlpSize hother hsample
  split at h
  · cases h
    exact hp₁
  · obtain ⟨basePrice, -, h⟩ := Option.bind_eq_some_iff.mp h
    cases h
    exact hp₁

/-- The eSpace block: within its plan where the machine can pack EVM transactions, and
    nothing at the parent's base price where it cannot. The core space's packing pool is left
    as it was. -/
theorem packEvm1559_spec {p p₁ : DeferredPool TX Sender} {canPackEvm : Bool}
    {blockGasLimit parentBasePrice minBasePrice blockSizeLimit numTxs : Nat}
    {validity : TX → PackingCheckResult} {sampled : List (SampleItem TX Sender)}
    {txs : List TX} {basePrice usedSize : Nat}
    (h : p.packEvm1559 nthInvRoot rlpSize canPackEvm blockGasLimit parentBasePrice minBasePrice
      blockSizeLimit numTxs validity sampled = some ((txs, basePrice, usedSize), p₁)) :
    (if canPackEvm then
        PackedWithinPlan nthInvRoot rlpSize p .ethereum
          (blockGasLimit * 5 / 10 / elasticityMultiplier) parentBasePrice minBasePrice
          blockSizeLimit numTxs validity sampled txs basePrice
      else txs = [] ∧ basePrice = parentBasePrice) ∧
      p₁.packingPool .native = p.packingPool .native := by
  unfold packEvm1559 at h
  cases canPackEvm with
  | false =>
    cases h
    exact ⟨⟨rfl, rfl⟩, rfl⟩
  | true =>
    obtain ⟨scaled, hscaled, h⟩ := Option.bind_eq_some_iff.mp h
    obtain ⟨-, rfl⟩ := Checked.mul_eq_some_iff.mp hscaled
    exact ⟨packSpace1559_withinPlan nthInvRoot rlpSize h,
      packSpace1559_packingPool_other nthInvRoot rlpSize (by decide) h⟩

/-- `pack_transactions_1559` never takes its "Inconsistent packing result" branches. What it
    returns is the eSpace's transactions and then the core space's, and each space's part is
    within the plan made from its packing pool: the recomputed base price, which is the
    space's block base price, is at most the planned price, every transaction of the space
    pays it, and the space's packed gas is at most twice its target and at most the pool's
    estimate. A space that is not packed keeps its parent's base price. -/
theorem packTransactions1559_within_plan {p p' : DeferredPool TX Sender}
    {numTxs blockGasLimit blockSizeLimit : Nat} {parentBasePrice minBasePrice : Space → Nat}
    {canPackEvm : Bool} {validity : TX → PackingCheckResult}
    {sampled : Space → List (SampleItem TX Sender)} {txs : List TX}
    {blockBasePrice : Space → Nat}
    (h : p.packTransactions1559 nthInvRoot rlpSize numTxs blockGasLimit parentBasePrice
      blockSizeLimit canPackEvm minBasePrice validity sampled = some ((txs, blockBasePrice), p')) :
    (numTxs = 0 ∧ txs = [] ∧ blockBasePrice = parentBasePrice) ∨
      ∃ evmTxs nativeTxs, txs = evmTxs ++ nativeTxs ∧
        (if canPackEvm then
            PackedWithinPlan nthInvRoot rlpSize p .ethereum
              (blockGasLimit * 5 / 10 / elasticityMultiplier) (parentBasePrice .ethereum)
              (minBasePrice .ethereum) blockSizeLimit numTxs validity (sampled .ethereum) evmTxs
              (blockBasePrice .ethereum)
          else evmTxs = [] ∧ blockBasePrice .ethereum = parentBasePrice .ethereum) ∧
        ∃ (p₁ : DeferredPool TX Sender) (sizeLimit numLimit : Nat),
          p₁.packingPool .native = p.packingPool .native ∧
          PackedWithinPlan nthInvRoot rlpSize p₁ .native
            (blockGasLimit * 9 / 10 / elasticityMultiplier) (parentBasePrice .native)
            (minBasePrice .native) sizeLimit numLimit validity (sampled .native) nativeTxs
            (blockBasePrice .native) := by
  unfold packTransactions1559 at h
  split at h
  · -- nothing to pack
    cases h
    exact .inl ⟨‹_›, rfl, rfl⟩
  right
  simp only [Option.bind_eq_bind, Option.bind_eq_some_iff] at h
  obtain ⟨⟨⟨evmTxs, evmBasePrice, evmUsedSize⟩, p₁⟩, hevm, scaled, hscaled, sizeLimit, -,
    numLimit, -, ⟨⟨nativeTxs, nativeBasePrice, nativeUsedSize⟩, p₂⟩, hnative, h⟩ := h
  cases h
  obtain ⟨-, rfl⟩ := Checked.mul_eq_some_iff.mp hscaled
  obtain ⟨hevmPlan, hpool⟩ := packEvm1559_spec nthInvRoot rlpSize hevm
  exact ⟨evmTxs, nativeTxs, rfl, hevmPlan, p₁, sizeLimit, numLimit, hpool,
    packSpace1559_withinPlan nthInvRoot rlpSize hnative⟩

end DeferredPool

/-- The pool of `smallConfig` holding the transactions `txs`, inserted in turn. -/
def smallPoolOf (txs : List MockTransaction) : PackingPool MockTransaction Nat :=
  let empty : PackingPool MockTransaction Nat :=
    ⟨Treap.TreapMap.new (packingPoolMap MockTransaction) fun _ => 0, smallConfig⟩
  (empty.insertAll anyRoot txs).getD empty

/-- Senders `1` and `2` in the eSpace at gas prices `20` and `30`, senders `3` and `4` in the
    core space at `25` and `40`: all above the minimum base price `10`. -/
def openDeferredPool : DeferredPool MockTransaction Nat :=
  ⟨fun s => if s = .ethereum then smallPoolOf [⟨1, 1, 0, 20, 3⟩, ⟨2, 2, 0, 30, 4⟩]
    else smallPoolOf [⟨3, 3, 0, 25, 5⟩, ⟨4, 4, 0, 40, 6⟩]⟩

/-- What the sampler of each space yields: its senders by descending price. -/
def openSampled (s : Space) : List (SampleItem MockTransaction Nat) :=
  if s = .ethereum then [(2, [⟨2, 2, 0, 30, 4⟩], .priceDesc), (1, [⟨1, 1, 0, 20, 3⟩], .priceDesc)]
  else [(4, [⟨4, 4, 0, 40, 6⟩], .priceDesc), (3, [⟨3, 3, 0, 25, 5⟩], .priceDesc)]

/-- Packing `openDeferredPool` into a block of gas limit `100` at parent and minimum base prices
    `10`, with the eSpace open. -/
def openPacking :
    Option ((List MockTransaction × (Space → Nat)) × DeferredPool MockTransaction Nat) :=
  openDeferredPool.packTransactions1559 anyRoot (fun _ => 1) 10 100 (fun _ => 10) 1000 true
    (fun _ => 10) (fun _ => .pack) openSampled

/-- What `openPacking` packs. -/
def openPacked : List MockTransaction := (openPacking.map fun r => r.1.1).getD []

/-- The block base prices of `openPacking`. -/
def openBasePrice : Space → Nat := (openPacking.map fun r => r.1.2).getD fun _ => 10

/-- The pool after `openPacking`. -/
def openPoolAfter : DeferredPool MockTransaction Nat :=
  (openPacking.map Prod.snd).getD openDeferredPool

/-- Both spaces pack both their senders, the eSpace's first, and each block keeps the base
    price `10`, which every packed transaction pays. -/
theorem packTransactions1559_within_plan_open :
    openPacking = some ((openPacked, openBasePrice), openPoolAfter) ∧
      openPacked.map (·.id) = [2, 1, 4, 3] ∧ openBasePrice .ethereum = 10 ∧
      openBasePrice .native = 10 ∧
      ((10 = 0 ∧ openPacked = [] ∧ openBasePrice = fun _ => 10) ∨
        ∃ evmTxs nativeTxs, openPacked = evmTxs ++ nativeTxs ∧
          (if true then
              DeferredPool.PackedWithinPlan anyRoot (fun _ => 1) openDeferredPool .ethereum
                (100 * 5 / 10 / elasticityMultiplier) 10 10 1000 10 (fun _ => .pack)
                (openSampled .ethereum) evmTxs (openBasePrice .ethereum)
            else evmTxs = [] ∧ openBasePrice .ethereum = 10) ∧
          ∃ (p₁ : DeferredPool MockTransaction Nat) (sizeLimit numLimit : Nat),
            p₁.packingPool .native = openDeferredPool.packingPool .native ∧
            DeferredPool.PackedWithinPlan anyRoot (fun _ => 1) p₁ .native
              (100 * 9 / 10 / elasticityMultiplier) 10 10 sizeLimit numLimit (fun _ => .pack)
              (openSampled .native) nativeTxs (openBasePrice .native)) := by
  have hsome : openPacking.isSome := by
    decide +kernel
  obtain ⟨r, hr⟩ := Option.isSome_iff_exists.mp hsome
  have hrun : openPacking = some ((openPacked, openBasePrice), openPoolAfter) := by
    simp only [openPacked, openBasePrice, openPoolAfter, hr, Option.map_some, Option.getD_some]
  have hview : (openPacked.map (·.id), openBasePrice .ethereum, openBasePrice .native) =
      ([2, 1, 4, 3], 10, 10) := by
    decide +kernel
  simp only [Prod.mk.injEq] at hview
  obtain ⟨hids, hevm, hnative⟩ := hview
  exact ⟨hrun, hids, hevm, hnative, DeferredPool.packTransactions1559_within_plan anyRoot (fun _ => 1) hrun⟩

end Mazze.TxPool
