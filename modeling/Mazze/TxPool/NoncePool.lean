import Mazze.Treap.Map
import Mazze.Packing.Batch
import Mazze.Lib.Checked
import Mazze.TxPool.Pack

/-!
# Nonce pools

`core/src/transaction_pool/nonce_pool/` (`mod.rs`, `nonce_pool_map.rs`, `weight.rs`). A
`NoncePool` holds the transactions of one sender, each with whether it is packed and what it
may cost, in a `TreapMap` keyed by nonce under the shared-key config of `NoncePoolConfig`. A
node's weight counts its transaction, counts it again if unpacked, and carries its cost and,
if unpacked, its nonce; a subtree's sum has the counts, the total cost and the largest unpacked
nonce. The readiness of a sender is two weight searches: the first unpacked transaction from
the sender's nonce with every nonce before it present, and how far the unpacked transactions
after it run on without a gap and within the balance.

`U256` values are natural numbers, and an operation of the code that can panic returns
`none`. The weight's `u32` counts are natural numbers too: a pool holds far fewer than `2^32`
transactions.
-/

set_option autoImplicit false

namespace Mazze.TxPool

open Mazze.Treap Mazze.Packing PackingPoolTransaction

/-- The space of an `AddressWithSpace`. -/
class WithSpace (Sender : Type) where
  space : Sender → Space

/-- What the pool reads of a signed transaction beyond what packing reads: its hash, the value
    it sends, and for a native transaction its storage limit and epoch height. -/
class PoolTransaction (TX : Type) (Sender Hash : outParam Type) extends
    PackingPoolTransaction TX Sender where
  hash : TX → Hash
  value : TX → Nat
  storageLimit : TX → Option Nat
  epochHeight : TX → Option Nat

open PoolTransaction

/-- `TRANSACTION_DEFAULT_EPOCH_BOUND`. -/
def transactionDefaultEpochBound : Nat := 100000

/-- `MAZZIES_PER_STORAGE_COLLATERAL_UNIT`: one MAZZE over 1024. -/
def mazziesPerStorageCollateralUnit : Nat := 1000000000000000000 / 1024

/-- `U128::max_value()`. -/
def u128Max : Nat := 2 ^ 128 - 1

/-- `u64::MAX`. -/
def u64Max : Nat := 2 ^ 64 - 1

variable {TX Sender Hash : Type} [PoolTransaction TX Sender Hash]

/-- `TxWithReadyInfo`. -/
structure TxWithReadyInfo (TX : Type) where
  transaction : TX
  packed : Bool
  sponsoredGas : Nat
  sponsoredStorage : Nat
  txCost : Nat

namespace TxWithReadyInfo

/-- `make_tx_cost`: the value, the gas the sender pays, and the storage collateral, each capped
    where the code caps it. -/
def makeTxCost (transaction : TX) (sponsoredGas sponsoredStorage : Nat) : Option Nat := do
  let gasLeft ← Checked.sub (gasLimit transaction) sponsoredGas
  -- `full_mul` into `U512`, which cannot overflow
  let estimateGas := if gasLeft * gasPrice transaction > u128Max then u128Max
    else gasLeft * gasPrice transaction
  let storageCollateralRequirement ← match storageLimit transaction with
    | some limit => do
      let units ← Checked.sub limit sponsoredStorage
      Checked.mul 256 units mazziesPerStorageCollateralUnit
    | none => pure 0
  let valueCap := u64Max * u128Max
  let base := if value transaction > valueCap then valueCap else value transaction
  let withGas ← Checked.add 256 base estimateGas
  Checked.add 256 withGas storageCollateralRequirement

/-- `TxWithReadyInfo::new`. -/
def new (transaction : TX) (packed : Bool) (sponsoredGas sponsoredStorage : Nat) :
    Option (TxWithReadyInfo TX) :=
  (makeTxCost transaction sponsoredGas sponsoredStorage).map fun txCost =>
    ⟨transaction, packed, sponsoredGas, sponsoredStorage, txCost⟩

/-- `compute_next_price`: the least gas price that replaces one of `price`. -/
def computeNextPrice (price : Nat) : Nat :=
  if price < 100 then price + 1 else price + price / 100 * 2

/-- `should_replace`: `self` replaces `x` when forced, when `x` is unpacked and `self` packed,
    or when its gas price is high enough, or as high and its epoch height newer. -/
def shouldReplace (self x : TxWithReadyInfo TX) (force : Bool) : Bool :=
  if force then true
  else if x.packed then false
  else if self.packed then true
  else
    let higherEpochHeight :=
      match epochHeight self.transaction, epochHeight x.transaction with
      | some mine, some other =>
        -- `saturating_add` and `saturating_mul` on `u64`
        if mine > min (other + min (transactionDefaultEpochBound * 2) u64Max) u64Max then none
        else some (decide (mine > other))
      | some _, none => some false
      | none, _ => some false
    match higherEpochHeight with
    | none => true
    | some higher =>
      decide (gasPrice self.transaction ≥ computeNextPrice (gasPrice x.transaction)) ||
        (decide (gasPrice self.transaction ≥ gasPrice x.transaction) && higher)

end TxWithReadyInfo

/-- `InsertResult`. -/
inductive InsertResult (TX : Type) where
  | newAdded
  | failed (message : String)
  | updated (replaced : TxWithReadyInfo TX)

/-- `NoncePoolWeight`. -/
structure NoncePoolWeight where
  unpackedSize : Nat
  cost : Nat
  size : Nat
  maxUnpackdNonce : Option Nat
  deriving DecidableEq, Repr

namespace NoncePoolWeight

instance : Zero NoncePoolWeight := ⟨⟨0, 0, 0, none⟩⟩

/-- `consolidate_max_nonce`. -/
def consolidateMaxNonce : Option Nat → Option Nat → Option Nat
  | none, none => none
  | none, some b => some b
  | some a, none => some a
  | some a, some b => some (max a b)

/-- `consolidate`: an empty left side gives the right side as it is. -/
def consolidate (a b : NoncePoolWeight) : NoncePoolWeight :=
  if a = 0 then b
  else ⟨a.unpackedSize + b.unpackedSize, a.cost + b.cost, a.size + b.size,
    consolidateMaxNonce a.maxUnpackdNonce b.maxUnpackdNonce⟩

instance : Add NoncePoolWeight := ⟨consolidate⟩

/-- `from_tx_info`. -/
def fromTxInfo (txInfo : TxWithReadyInfo TX) : NoncePoolWeight :=
  if txInfo.packed then ⟨0, txInfo.txCost, 1, none⟩
  else ⟨1, txInfo.txCost, 1, some (nonce txInfo.transaction)⟩

end NoncePoolWeight

/-- `NoncePoolConfig` as a `SharedKeyTreapMapConfig`. -/
abbrev noncePoolConfig (TX : Type) :
    TreapMapConfig Nat Unit (TxWithReadyInfo TX) NoncePoolWeight Counter :=
  sharedKeyConfig Nat (TxWithReadyInfo TX) NoncePoolWeight

/-- `NoncePoolMap`. -/
abbrev NoncePoolMap (TX : Type) :=
  TreapMap Nat Unit (TxWithReadyInfo TX) NoncePoolWeight Counter

/-- `Result<T, Infallible>::unwrap`, as `NoncePoolMap` uses it. -/
def unwrapInfallible {α : Type} : Except Empty α → α
  | .ok a => a
  | .error e => e.elim

namespace NoncePoolMap

/-- The message of a refused replacement. -/
def replaceMessage (old : TxWithReadyInfo TX) : String :=
  "Tx with same nonce already inserted. To replace it, you need to specify a gas price > " ++
    toString (gasPrice old.transaction)

/-- `insert`: replace the transaction of the same nonce if `should_replace` says so, else add
    it. `none` is a panic of the treap. -/
def insert (m : NoncePoolMap TX) (tx : TxWithReadyInfo TX) (force : Bool) :
    Option (InsertResult TX × NoncePoolMap TX) :=
  let update (e : Entry Nat Unit (TxWithReadyInfo TX) NoncePoolWeight) :
      Entry Nat Unit (TxWithReadyInfo TX) NoncePoolWeight ×
        Except Empty (ApplyOpOutcome (InsertResult TX)) :=
    if tx.shouldReplace e.value force then
      ({ e with value := tx, weight := NoncePoolWeight.fromTxInfo tx },
        .ok ⟨.updated e.value, true, false, false⟩)
    else (e, .ok ⟨.failed (replaceMessage e.value), false, false, false⟩)
  let insert (rng : Stream' UInt64) :=
    (.ok (Node.new (nonce tx.transaction) tx () (NoncePoolWeight.fromTxInfo tx) rng.head,
      InsertResult.newAdded), rng.tail)
  (m.update (noncePoolConfig TX) (nonce tx.transaction) update insert).map fun (r, m) =>
    (unwrapInfallible r, m)

/-- `mark_packed`: whether the flag of the transaction at `nonce` changed. -/
def markPacked (m : NoncePoolMap TX) (nonce : Nat) (packed : Bool) :
    Option (Bool × NoncePoolMap TX) :=
  let update (e : Entry Nat Unit (TxWithReadyInfo TX) NoncePoolWeight) :
      Entry Nat Unit (TxWithReadyInfo TX) NoncePoolWeight × Except Unit (ApplyOpOutcome Unit) :=
    if packed = e.value.packed then (e, .error ())
    else
      let value := { e.value with packed := packed }
      ({ e with value := value, weight := NoncePoolWeight.fromTxInfo value },
        .ok ⟨(), true, false, false⟩)
  let insert (rng : Stream' UInt64) :
      Except Unit (Node Nat Unit (TxWithReadyInfo TX) NoncePoolWeight × Unit) × Stream' UInt64 :=
    (.error (), rng)
  (m.update (noncePoolConfig TX) nonce update insert).map fun (r, m) =>
    (match r with
      | .ok () => true
      | .error () => false, m)

/-- `query`: the unpacked transaction of the least nonce from `nonce` on. -/
def query (m : NoncePoolMap TX) (nonce : Nat) : Option (TxWithReadyInfo TX) :=
  match m.search (noncePoolConfig TX) fun leftWeight node =>
    if (leftWeight.maxUnpackdNonce.map fun x => decide (x ≥ nonce)).getD false then .left
    else if (node.weight.maxUnpackdNonce.map fun x => decide (x ≥ nonce)).getD false then .stop
    else .right (leftWeight + node.weight) with
  | some (.found _ node) => some node.value
  | _ => none

/-- `weight`: the weights of the transactions up to `nonce`, summed. -/
def weight (m : NoncePoolMap TX) (nonce : Nat) : NoncePoolWeight :=
  match m.search (noncePoolConfig TX) fun leftWeight node =>
    if nonce < node.key then .left
    else if nonce = node.key then .stop
    else .rightOrStop (leftWeight + node.weight) with
  | some (.found baseWeight node) => baseWeight + node.weight
  | _ => 0

/-- `continous_ready_nonce`: the last nonce from `startNonce` on up to which the transactions
    have no gap, are unpacked, and cost no more than `restBalance`. `startWeight` is the
    weight up to `startNonce`. -/
def continousReadyNonce (m : NoncePoolMap TX) (startNonce : Nat) (startWeight : NoncePoolWeight)
    (restBalance : Nat) : Option Nat := do
  let ret ← m.searchM (noncePoolConfig TX) fun leftWeight node => do
    let weight := leftWeight + node.weight
    if startNonce > node.key then return .right weight
    if startNonce = node.key then return .rightOrStop weight
    let nonceElapsed ← Checked.sub (nonce node.value.transaction) startNonce
    if nonceElapsed > 2 ^ 32 - 1 then return .left
    let itemElapsed ← Checked.sub weight.size startWeight.size
    let unpackedElapsed ← Checked.sub weight.unpackedSize startWeight.unpackedSize
    let costElapsed ← Checked.sub weight.cost startWeight.cost
    -- a packed transaction or a missing nonce in between
    if itemElapsed ≠ unpackedElapsed ∨ nonceElapsed ≠ unpackedElapsed then return .left
    if costElapsed > restBalance then return .left
    return .rightOrStop weight
  match ret with
  | some (.found _ node) => pure (nonce node.value.transaction)
  | _ => pure startNonce

/-- `leftmost`: the transaction of the least nonce. -/
def leftmost (m : NoncePoolMap TX) : Option (TxWithReadyInfo TX) :=
  match m.searchNoWeight (noncePoolConfig TX) fun _ => .leftOrStop with
  | some (.found _ node) => some node.value
  | _ => none

/-- `succ`: the transaction of the least nonce from `nonce` on. -/
def succ (m : NoncePoolMap TX) (nonce : Nat) : Option (TxWithReadyInfo TX) :=
  match m.searchNoWeight (noncePoolConfig TX) fun node =>
    if nonce ≤ node.key then .leftOrStop else .right () with
  | some (.found _ node) => some node.value
  | _ => none

/-- `iter_range`: the transactions from `nonce` on, in order. -/
def iterRange (m : NoncePoolMap TX) (nonce : Nat) : List (TxWithReadyInfo TX) :=
  (Iter.toList (TreapMap.iterRange m (noncePoolConfig TX) nonce)).map fun node => node.value

end NoncePoolMap

/-- `PendingReason`: why a transaction of the pool is not ready. -/
inductive PendingReason where
  | futureNonce
  | notEnoughCash
  | oldEpochHeight
  | outdatedStatus
  deriving DecidableEq, Repr

/-- `NoncePool`. -/
structure NoncePool (TX : Type) where
  map : NoncePoolMap TX

namespace NoncePool

/-- `NoncePool::new`, from a random source. -/
def new (rng : Stream' UInt64) : NoncePool TX := ⟨TreapMap.new (noncePoolConfig TX) rng⟩

/-- `insert`. -/
def insert (p : NoncePool TX) (tx : TxWithReadyInfo TX) (force : Bool) :
    Option (InsertResult TX × NoncePool TX) :=
  (p.map.insert tx force).map fun (r, m) => (r, ⟨m⟩)

/-- `mark_packed`. -/
def markPacked (p : NoncePool TX) (nonce : Nat) (packed : Bool) : Option (Bool × NoncePool TX) :=
  (p.map.markPacked nonce packed).map fun (r, m) => (r, ⟨m⟩)

/-- `get_tx_by_nonce`. -/
def getTxByNonce (p : NoncePool TX) (nonce : Nat) : Option (TxWithReadyInfo TX) :=
  p.map.get (noncePoolConfig TX) nonce

/-- `iter_tx_by_nonce`. -/
def iterTxByNonce (p : NoncePool TX) (nonce : Nat) : List (TxWithReadyInfo TX) :=
  p.map.iterRange nonce

/-- `get_lowest_nonce_tx`. -/
def getLowestNonceTx (p : NoncePool TX) : Option TX :=
  p.map.leftmost.map fun info => info.transaction

/-- `remove`. -/
def remove (p : NoncePool TX) (nonce : Nat) : Option (TxWithReadyInfo TX) × NoncePool TX :=
  let (r, m) := p.map.remove (noncePoolConfig TX) nonce
  (r, ⟨m⟩)

/-- `remove_lowest_nonce`. -/
def removeLowestNonce (p : NoncePool TX) : Option (TxWithReadyInfo TX) × NoncePool TX :=
  match p.getLowestNonceTx with
  | none => (none, p)
  | some tx => p.remove (nonce tx)

/-- `is_empty`. -/
def isEmpty (p : NoncePool TX) : Bool := p.map.len (noncePoolConfig TX) == 0

/-- `check_nonce_exists`. -/
def checkNonceExists (p : NoncePool TX) (nonce : Nat) : Bool := (p.getTxByNonce nonce).isSome

/-- `recalculate_readiness_with_local_info`: the first transaction that can be packed, with
    every nonce from the sender's `nonce` up to it present and the balance enough for them,
    and the last nonce of the ready run from it. The outer `none` is a panic. -/
def recalculateReadinessWithLocalInfo (p : NoncePool TX) (nonce balance : Nat) :
    Option (Option (TxWithReadyInfo TX × Nat)) :=
  match p.map.query nonce with
  | none => some none
  | some tx => do
    let a ← if nonce = 0 then pure 0 else (Checked.sub nonce 1).map p.map.weight
    let b := p.map.weight (PackingPoolTransaction.nonce tx.transaction)
    let sizeElapsed ← Checked.sub b.size a.size
    let costElapsed ← Checked.sub b.cost a.cost
    let sizeBefore ← Checked.sub sizeElapsed 1
    let nonceElapsed ← Checked.sub (PackingPoolTransaction.nonce tx.transaction) nonce
    if sizeBefore ≠ nonceElapsed ∨ costElapsed > balance then return none
    let restBalance ← Checked.sub balance costElapsed
    let endNonce ← p.map.continousReadyNonce (PackingPoolTransaction.nonce tx.transaction) b
      restBalance
    return some (tx, endNonce)

/-- `check_pending_reason_with_local_info`: why `pendingTx` is not ready for a sender of local
    nonce `nonce` and balance `balance`. The weights before `nonce` and up to `pendingTx` give
    the count and cost of the transactions between; the nonce `pendingTx` would have if they
    all ran is compared with its own. The `u32` count and the costs are subtracted with checks,
    and the outer `none` is a panic. -/
def checkPendingReasonWithLocalInfo (p : NoncePool TX) (nonce balance : Nat) (pendingTx : TX) :
    Option (Option PendingReason) := do
  let a ← if nonce = 0 then pure 0 else (Checked.sub nonce 1).map p.map.weight
  let b := p.map.weight (PackingPoolTransaction.nonce pendingTx)
  let sizeElapsed ← Checked.sub b.size a.size
  let sizeBefore ← Checked.sub sizeElapsed 1
  let expectedNonce ← Checked.add 256 nonce sizeBefore
  if expectedNonce ≠ PackingPoolTransaction.nonce pendingTx then return some .futureNonce
  let expectedBalance ← Checked.sub b.cost a.cost
  if expectedBalance > balance then return some .notEnoughCash
  return none

/-- `count_less`: the number of transactions of nonce below `nonce`. -/
def countLess (p : NoncePool TX) (nonce : Nat) : Nat :=
  if nonce = 0 then 0 else (p.map.weight (nonce - 1)).size

/-- `count_from`: the number of transactions from `nonce` on, the length less `count_less`. The
    `usize` subtraction panics below zero. -/
def countFrom (p : NoncePool TX) (nonce : Nat) : Option Nat :=
  Checked.sub (p.map.len (noncePoolConfig TX)) (p.countLess nonce)

/-- `succ_nonce`. -/
def succNonce (p : NoncePool TX) (nonce : Nat) : Option Nat :=
  (p.map.succ nonce).map fun tx => PackingPoolTransaction.nonce tx.transaction

/-- `get_pending_info`: the number of transactions from `nonce` on and the first of them. The
    outer `none` is a panic. -/
def getPendingInfo (p : NoncePool TX) (nonce : Nat) : Option (Option (Nat × TX)) :=
  match p.map.succ nonce with
  | some tx => (p.countFrom nonce).map fun pendingCount => some (pendingCount, tx.transaction)
  | none => some none

/-- `get_pending_transactions`: the unpacked transactions from `nonce` on, in order. -/
def getPendingTransactions (p : NoncePool TX) (nonce : Nat) : List (TxWithReadyInfo TX) :=
  (p.iterTxByNonce nonce).filter fun txInfo => !txInfo.packed

variable [Inhabited TX]

/-- The loop of `make_packing_batch` over the transactions after the first: stop at a gap, at
    a transaction the batch refuses, or past `lastValidNonce`. -/
def makePackingBatchLoop (config : PackingPoolConfig) (lastValidNonce : Nat) :
    PackingBatch TX → Nat → List (TxWithReadyInfo TX) → Option (PackingBatch TX)
  | batch, _, [] => some batch
  | batch, nextNonce, tx :: txs =>
    if PackingPoolTransaction.nonce tx.transaction ≠ nextNonce then some batch
    else do
      let nextNonce ← Checked.add 256 nextNonce 1
      let (res, batch) ← batch.insert tx.transaction config
      match res.2 with
      | .error _ => some batch
      | .ok () =>
        if nextNonce > lastValidNonce then some batch
        else makePackingBatchLoop config lastValidNonce batch nextNonce txs

/-- `make_packing_batch`: the batch of `firstTx` and the transactions of the following nonces,
    up to `lastValidNonce`. -/
def makePackingBatch (p : NoncePool TX) (firstTx : TxWithReadyInfo TX) (config : PackingPoolConfig)
    (lastValidNonce : Nat) : Option (PackingBatch TX) := do
  let startNonce := PackingPoolTransaction.nonce firstTx.transaction
  let nextNonce ← Checked.add 256 startNonce 1
  makePackingBatchLoop config lastValidNonce (PackingBatch.new firstTx.transaction) nextNonce
    (p.iterTxByNonce nextNonce)

end NoncePool

end Mazze.TxPool
