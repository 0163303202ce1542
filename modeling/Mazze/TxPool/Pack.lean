import Mazze.Packing.Sample
import Mazze.Primitives.BasePrice

/-!
# Packing a block under EIP-1559

`core/src/transaction_pool/transaction_pool_inner.rs` (`pack_transactions_1559`, and the
deferred pool's `estimate_packing_gas_limit` and `packing_sampler`) with
`packing-pool/src/pool.rs` (`estimate_packing_gas_limit`, `can_sample_within_1559`). Each
space of a block gets a share of the block's gas limit, and its gas target is half of that
share. The packer plans first. A weight search over the packing pool finds how much gas the
pool's cheapest senders can fill before the next base price passes their gas price. The
planned gas limit is that amount, capped at twice the target, and the planned minimum price
is the base price that gas limit gives. The sampler then walks the pool's senders and packs
their transactions that pay the minimum price, within the gas, size and count limits. Last,
the base price is recomputed from the gas the sampler reports.

The sampler draws from a random source seeded from entropy. What it yields, sender by sender,
is the `sampled` list of the space: every theorem here holds for every such list. The
deferred pool's nonce pools (`buckets`) are not read when packing, so they are left out.
-/

set_option autoImplicit false

namespace Mazze.Packing

open Mazze.Treap Mazze.Primitives

variable {TX Sender : Type} [PackingPoolTransaction TX Sender] [LinearOrder Sender] [Inhabited TX]

/-- `can_sample_within_1559`: the senders of `weight` can be packed if their cheapest gas
    price is the minimum base price or more, and either their gas fits what the next base
    price allows at that price, or the part that does not fit loses little. -/
def canSampleWithin1559 (weight : PackingPoolWeight) (gasTarget parentBasePrice minBasePrice : Nat) :
    Option Bool :=
  if weight.minGasPrice < minBasePrice then some false
  else (estimateMaxPossibleGas gasTarget weight.minGasPrice parentBasePrice).map fun maxTargetGasUsed =>
    if maxTargetGasUsed = 0 then false
    else if weight.gasLimit ≤ maxTargetGasUsed then true
    else decide (saturatingMul weight.maxLossRatio (weight.gasLimit - maxTargetGasUsed) <
      weight.weightedLossRatio)

/-- `PackingPool::estimate_packing_gas_limit`: search for the longest prefix of the pool, by
    gas price, that can be sampled, and return the gas the next base price allows at its
    cheapest gas price. The test-only assertion after the search is left out. -/
def PackingPool.estimatePackingGasLimit (p : PackingPool TX Sender)
    (gasTarget parentBasePrice minBasePrice : Nat) : Option Nat := do
  let canSample := fun weight => canSampleWithin1559 weight gasTarget parentBasePrice minBasePrice
  let ret ← p.treapMap.searchM (packingPoolMap TX) fun leftWeight node => do
    if !(← canSample leftWeight) then return .left
    let rightWeight := (packingPoolMap TX).consolidate leftWeight node.weight
    if !(← canSample rightWeight) then return .stop
    return .right rightWeight
  match ret with
  | some (.found baseWeight _) | some (.rightMost baseWeight) =>
    estimateMaxPossibleGas gasTarget baseWeight.minGasPrice parentBasePrice
  | _ => pure 0

end Mazze.Packing

namespace Mazze.TxPool

open Mazze.Packing Mazze.Primitives PackingPoolTransaction

/-- `ELASTICITY_MULTIPLIER`. -/
def elasticityMultiplier : Nat := 2

/-- `Space`. -/
inductive Space where
  | native
  | ethereum
  deriving DecidableEq, Repr

/-- `PackingCheckResult`: what the validity oracle says of a transaction. -/
inductive PackingCheckResult where
  | pack
  | pending
  | drop
  deriving DecidableEq, Repr

/-- Which loop of `packing_sampler` a `break` leaves: `'sender`, on to the next sender, or
    `'all`. -/
inductive LoopExit where
  | sender
  | all
  deriving DecidableEq, Repr

variable {TX Sender : Type} [PackingPoolTransaction TX Sender]

/-- The part of `DeferredPool` that packing reads: the packing pool of each space. -/
structure DeferredPool (TX Sender : Type) where
  packingPool : Space → PackingPool TX Sender

/-- The deferred pool with the packing pool of `space` replaced. -/
def DeferredPool.setPackingPool (p : DeferredPool TX Sender) (space : Space)
    (pool : PackingPool TX Sender) : DeferredPool TX Sender :=
  ⟨fun s => if s = space then pool else p.packingPool s⟩

/-- The variables of `packing_sampler`'s loops. -/
structure SamplerState (TX : Type) where
  toPackTxs : List TX
  toDropTxs : List TX
  minimumUnitGasLimit : Nat
  minimumUnitTxSize : Nat
  restSizeLimit : Nat
  restGasLimit : Nat

section Sampler

variable (rlpSize : TX → Nat) (txNumLimit txMinPrice : Nat)
  (validity : TX → PackingCheckResult)

/-- The `'sender` loop of `packing_sampler` over one sender's transactions, and the loop it
    breaks out of. A transaction that does not fit raises the threshold under which the
    whole packing stops by a sixteenth; the gas it would use is already taken from the rest
    when its size is checked. -/
def packSenderTxs (st : SamplerState TX) : List TX → Option (LoopExit × SamplerState TX)
  | [] => some (.sender, st)
  | tx :: txs =>
    if gasPrice tx < txMinPrice then some (.sender, st)
    else
      match validity tx with
      | .pending => some (.sender, st)
      | .drop => some (.sender, { st with toDropTxs := st.toDropTxs ++ [tx] })
      | .pack =>
        let txGasLimit := gasLimit tx
        if txGasLimit > st.restGasLimit then
          if txGasLimit ≥ st.minimumUnitGasLimit then
            (Checked.add 256 st.minimumUnitGasLimit (st.minimumUnitGasLimit >>> 4)).map fun m =>
              (.sender, { st with minimumUnitGasLimit := m })
          else some (.all, st)
        else
          let st := { st with restGasLimit := st.restGasLimit - txGasLimit }
          let txSize := rlpSize tx
          if txSize > st.restSizeLimit then
            -- `usize` arithmetic, with overflow checks on
            if txSize ≥ st.minimumUnitTxSize then
              (Checked.add 64 st.minimumUnitTxSize (st.minimumUnitTxSize >>> 4)).map fun m =>
                (.sender, { st with minimumUnitTxSize := m })
            else some (.all, st)
          else
            let st := { st with
              restSizeLimit := st.restSizeLimit - txSize
              toPackTxs := st.toPackTxs ++ [tx] }
            if st.toPackTxs.length ≥ txNumLimit then some (.all, st)
            else packSenderTxs st txs

/-- The `'all` loop of `packing_sampler` over what the sampler yields. -/
def packSenders (st : SamplerState TX) : List (SampleItem TX Sender) → Option (SamplerState TX)
  | [] => some st
  | (_, senderTxs, _) :: sampled =>
    (packSenderTxs rlpSize txNumLimit txMinPrice validity st senderTxs).bind fun
      | (.all, st) => some st
      | (.sender, st) => packSenders st sampled

end Sampler

variable [LinearOrder Sender] [Inhabited TX]

namespace DeferredPool

variable (nthInvRoot : Nat → Nat → Nat) (rlpSize : TX → Nat)

/-- `DeferredPool::estimate_packing_gas_limit`: the planned gas limit, at most twice the
    target, and the base price it gives. -/
def estimatePackingGasLimit (p : DeferredPool TX Sender) (space : Space)
    (gasTarget parentBasePrice minBasePrice : Nat) : Option (Nat × Nat) := do
  let estimatedGasLimit ←
    (p.packingPool space).estimatePackingGasLimit gasTarget parentBasePrice minBasePrice
  let twice ← Checked.mul 256 gasTarget 2
  let packingGasLimit := min twice estimatedGasLimit
  let priceLimit ← computeNextPrice gasTarget packingGasLimit parentBasePrice minBasePrice
  pure (packingGasLimit, priceLimit)

/-- `DeferredPool::packing_sampler` over what the sampler of `space` yields: the packed
    transactions, the gas and the size used, and the pool with the senders of dropped
    transactions cut at them. -/
def packingSampler (p : DeferredPool TX Sender) (space : Space)
    (blockGasLimit blockSizeLimit txNumLimit txMinPrice : Nat)
    (validity : TX → PackingCheckResult) (sampled : List (SampleItem TX Sender)) :
    Option ((List TX × Nat × Nat) × DeferredPool TX Sender) :=
  if blockGasLimit = 0 ∨ blockSizeLimit = 0 ∨ txNumLimit = 0 then some (([], 0, 0), p)
  else
    (packSenders rlpSize txNumLimit txMinPrice validity
      ⟨[], [], 21000, 80, blockSizeLimit, blockGasLimit⟩ sampled).bind fun st =>
    (st.toDropTxs.foldlM (fun (pool : PackingPool TX Sender) tx =>
        (pool.splitOffSuffix nthInvRoot (sender tx) (nonce tx)).map Prod.snd)
      (p.packingPool space)).map fun pool =>
    -- the rests never pass the limits they start from
    ((st.toPackTxs, blockGasLimit - st.restGasLimit, blockSizeLimit - st.restSizeLimit),
      p.setPackingPool space pool)

/-- One space's block of `pack_transactions_1559`: plan, sample, and recompute the base
    price from the gas used. The code writes the block out for each space. The core space's
    copy drops the size used, and the eSpace's copy returns no transactions and no size on
    the branch the code marks unreachable. -/
def packSpace1559 (p : DeferredPool TX Sender) (space : Space)
    (gasTarget parentBasePrice minBasePrice blockSizeLimit numTxs : Nat)
    (validity : TX → PackingCheckResult) (sampled : List (SampleItem TX Sender)) :
    Option ((List TX × Nat × Nat) × DeferredPool TX Sender) := do
  let (packingGasLimit, txMinPrice) ←
    p.estimatePackingGasLimit space gasTarget parentBasePrice minBasePrice
  let ((sampledTx, usedGas, usedSize), p) ← p.packingSampler nthInvRoot rlpSize space
    packingGasLimit blockSizeLimit numTxs txMinPrice validity sampled
  let basePrice ← computeNextPrice gasTarget usedGas parentBasePrice minBasePrice
  if basePrice ≤ txMinPrice then pure ((sampledTx, basePrice, usedSize), p)
  else
    -- "Inconsistent packing result": the base price of an empty block, and nothing packed
    let basePrice ← computeNextPrice gasTarget 0 parentBasePrice minBasePrice
    pure (([], basePrice, 0), p)

/-- The eSpace block, where the machine can pack EVM transactions: half of the block's gas
    limit, and the eSpace keeps its parent's base price where it cannot. -/
def packEvm1559 (p : DeferredPool TX Sender) (canPackEvm : Bool)
    (blockGasLimit parentBasePrice minBasePrice blockSizeLimit numTxs : Nat)
    (validity : TX → PackingCheckResult) (sampled : List (SampleItem TX Sender)) :
    Option ((List TX × Nat × Nat) × DeferredPool TX Sender) :=
  if canPackEvm then
    (Checked.mul 256 blockGasLimit 5).bind fun scaled =>
      p.packSpace1559 nthInvRoot rlpSize .ethereum (scaled / 10 / elasticityMultiplier)
        parentBasePrice minBasePrice blockSizeLimit numTxs validity sampled
  else some (([], parentBasePrice, 0), p)

/-- `pack_transactions_1559`: the eSpace first, then the core space with nine tenths of the
    block's gas limit and what the eSpace left of the size and count limits. Returns the
    packed transactions and the block's base price in each space. -/
def packTransactions1559 (p : DeferredPool TX Sender) (numTxs blockGasLimit : Nat)
    (parentBasePrice : Space → Nat) (blockSizeLimit : Nat) (canPackEvm : Bool)
    (minBasePrice : Space → Nat) (validity : TX → PackingCheckResult)
    (sampled : Space → List (SampleItem TX Sender)) :
    Option ((List TX × (Space → Nat)) × DeferredPool TX Sender) :=
  if numTxs = 0 then some (([], parentBasePrice), p)
  else do
    let ((evmTxs, evmBasePrice, evmUsedSize), p) ← p.packEvm1559 nthInvRoot rlpSize canPackEvm
      blockGasLimit (parentBasePrice .ethereum) (minBasePrice .ethereum) blockSizeLimit numTxs
      validity (sampled .ethereum)
    let scaled ← Checked.mul 256 blockGasLimit 9
    let sizeLimit ← Checked.sub blockSizeLimit evmUsedSize
    let numLimit ← Checked.sub numTxs evmTxs.length
    let ((nativeTxs, nativeBasePrice, _), p) ← p.packSpace1559 nthInvRoot rlpSize .native
      (scaled / 10 / elasticityMultiplier) (parentBasePrice .native) (minBasePrice .native)
      sizeLimit numLimit validity (sampled .native)
    let blockBasePrice : Space → Nat := fun
      | .native => nativeBasePrice
      | .ethereum => evmBasePrice
    pure ((evmTxs ++ nativeTxs, blockBasePrice), p)

end DeferredPool

end Mazze.TxPool
