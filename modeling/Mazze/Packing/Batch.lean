import Mathlib
import Mazze.Lib.Checked

/-!
# Packing batches

`packing-pool/src/packing_batch.rs` and `pool_config.rs`. A `PackingBatch` holds the
transactions of one sender with consecutive nonces, cheapest first, that the packing pool
offers as one unit. `insert` takes a transaction that continues, precedes, or replaces one of
the batch, truncating what no longer fits the config's per-sender limits, and returns what it
dropped; the `split_off` family cuts the batch at a nonce.

`U256` values are natural numbers. The sums `insert` forms, `start_nonce + len`, the gas
`check_acceptable_batch` accumulates and the appended total, are checked: past `U256::MAX`
the code panics, which is `none` here. `update_total_limit` sums a part of a batch whose total
is already a `U256`, and is a plain sum.
-/

set_option autoImplicit false

namespace Mazze.Packing

/-- `U256::MAX`. -/
def U256MAX : Nat := 2 ^ 256 - 1

/-- `PackingPoolTransaction`. -/
class PackingPoolTransaction (TX : Type) (Sender : outParam Type) where
  sender : TX → Sender
  nonce : TX → Nat
  gasPrice : TX → Nat
  gasLimit : TX → Nat

open PackingPoolTransaction

/-- `MockTransaction`, the transaction of the crate's tests. -/
structure MockTransaction where
  id : Nat
  sender : Nat
  nonce : Nat
  gasPrice : Nat
  gasLimit : Nat
  deriving DecidableEq, Repr, Inhabited

instance : PackingPoolTransaction MockTransaction Nat where
  sender tx := tx.sender
  nonce tx := tx.nonce
  gasPrice tx := tx.gasPrice
  gasLimit tx := tx.gasLimit

/-- `PackingPoolConfig`, as `new` builds it: `new` asserts the degree is between 1 and 5. -/
structure PackingPoolConfig where
  addressGasLimit : Nat
  addressTxCount : Nat
  lossRatioDegree : Nat
  degree_pos : 0 < lossRatioDegree
  degree_le : lossRatioDegree ≤ 5

variable {TX Sender : Type} [PackingPoolTransaction TX Sender]

namespace PackingPoolConfig

/-- The loop of `check_acceptable_batch` from index `idx` with `total` gas accepted so far:
    stop at the transaction count, or at the first transaction whose gas passes the limit,
    which a batch's first transaction may do alone. The sum `total_gas_limit + tx_gas` is a
    `U256` one, and panics past `U256::MAX`. -/
def checkAcceptableFrom (c : PackingPoolConfig) (replaced : Option (TX × Nat)) (len : Nat) :
    Nat → Nat → List TX → Option (Nat × Nat)
  | _, total, [] => some (len, total)
  | idx, total, tx :: rest =>
    if idx ≥ c.addressTxCount then some (idx, total)
    else
      let txGas :=
        match replaced with
        | some (r, i) => if idx = i then gasLimit r else gasLimit tx
        | none => gasLimit tx
      (Checked.add 256 total txGas).bind fun sum =>
        if sum > c.addressGasLimit then
          if idx = 0 then some (1, txGas) else some (idx, total)
        else checkAcceptableFrom c replaced len (idx + 1) sum rest

/-- `check_acceptable_batch`: the length of the longest acceptable prefix of `txs`, with the
    transaction at a replaced index counted as its replacement, and that prefix's gas. -/
def checkAcceptableBatch (c : PackingPoolConfig) (txs : List TX) (replaced : Option (TX × Nat)) :
    Option (Nat × Nat) :=
  c.checkAcceptableFrom replaced txs.length 0 0 txs

/-- `loss_ratio`: `1 / gas_price^degree` with one as `2^128`. Degrees above one take the
    `nth_inv_root` of `mazze_math`, a function of the degree and the price given here. -/
def lossRatio (nthInvRoot : Nat → Nat → Nat) (c : PackingPoolConfig) (gasPrice : Nat) : Nat :=
  if gasPrice = 0 then 1 <<< 128
  else (if c.lossRatioDegree = 1 then U256MAX / gasPrice else nthInvRoot c.lossRatioDegree gasPrice)
    >>> 128

end PackingPoolConfig

/-- `InsertError`. -/
inductive InsertError where
  | largeNonce
  | tooLargeNonce
  | exceedAddrTxCount
  | exceedAddrGasLimit
  | decreasingGasPrice
  deriving DecidableEq, Repr

/-- `RemoveError`. -/
inductive RemoveError where
  | shouldDelete
  deriving DecidableEq, Repr

/-- `PackingBatch`. -/
structure PackingBatch (TX : Type) where
  txs : List TX
  totalGasLimit : Nat
  deriving DecidableEq, Repr

/-- `PackInfo`. -/
structure PackInfo where
  firstGasPrice : Nat
  totalGasLimit : Nat
  deriving DecidableEq, Repr

namespace PackingBatch

variable [Inhabited TX]

/-- `new`. -/
def new (tx : TX) : PackingBatch TX := ⟨[tx], gasLimit tx⟩

/-- `txs.first().unwrap()`, which panics on an empty batch. -/
def first (b : PackingBatch TX) : TX := b.txs.headD default

/-- `sender`. -/
def sender (b : PackingBatch TX) : Sender := PackingPoolTransaction.sender b.first

/-- `start_nonce`. -/
def startNonce (b : PackingBatch TX) : Nat := nonce b.first

/-- `first_gas_price`. -/
def firstGasPrice (b : PackingBatch TX) : Nat := gasPrice b.first

/-- `pack_info`. -/
def packInfo (b : PackingBatch TX) : PackInfo := ⟨b.firstGasPrice, b.totalGasLimit⟩

/-- `update_total_limit`: the gas of the transactions, summed again. -/
def updateTotalLimit (b : PackingBatch TX) : PackingBatch TX :=
  { b with totalGasLimit := (b.txs.map gasLimit).foldl (· + ·) 0 }

/-- `insert`: the transactions dropped, and whether `tx` went in. `none` is a panic of one of
    its `U256` sums: `start_nonce + n_txs`, the gas `check_acceptable_batch` adds up, and the
    appended `total_gas_limit += gas_limit`, which the saturating test before it does not
    keep below `U256::MAX`. -/
def insert (b : PackingBatch TX) (tx : TX) (config : PackingPoolConfig) :
    Option ((List TX × Except InsertError Unit) × PackingBatch TX) :=
  if nonce tx ≥ U256MAX - 1 then some (([], .error .tooLargeNonce), b)
  else
    let startNonce := b.startNonce
    let nTxs := b.txs.length
    let txs := b.txs
    -- `tx` comes before the batch: a gap, or a pricier predecessor, starts a new batch
    if nonce tx + 1 < startNonce ∨ (nonce tx + 1 = startNonce ∧ gasPrice tx > b.firstGasPrice) then
      some ((txs, .ok ()), new tx)
    else if nonce tx + 1 = startNonce ∧ gasPrice tx ≤ b.firstGasPrice then
      let txs := tx :: txs
      (config.checkAcceptableBatch txs none).map fun (truncateIdx, addrGasLimit) =>
        ((txs.drop truncateIdx, .ok ()), ⟨txs.take truncateIdx, addrGasLimit⟩)
    else (Checked.add 256 startNonce nTxs).bind fun endNonce =>
    if nonce tx > endNonce then some (([], .error .largeNonce), b)
    else if nonce tx = endNonce then
      -- append
      if nTxs ≥ config.addressTxCount then some (([], .error .exceedAddrTxCount), b)
      else if gasPrice (txs.getLastD default) > gasPrice tx then
        some (([], .error .decreasingGasPrice), b)
      else if config.addressGasLimit < min (b.totalGasLimit + gasLimit tx) U256MAX then
        some (([], .error .exceedAddrGasLimit), b)
      else (Checked.add 256 b.totalGasLimit (gasLimit tx)).map fun total =>
        (([], .ok ()), ⟨txs ++ [tx], total⟩)
    else
      -- replace the transaction of the same nonce
      let idx := nonce tx - startNonce
      if idx > 0 ∧ gasPrice tx < gasPrice (txs.getD (idx - 1) default) then
        some ((txs.drop idx, .error .decreasingGasPrice),
          updateTotalLimit ⟨txs.take idx, b.totalGasLimit⟩)
      else (config.checkAcceptableBatch txs (some (tx, idx))).map fun (truncateIdx, addrGasLimit) =>
        if truncateIdx ≤ idx then
          ((txs.drop idx, .error .exceedAddrGasLimit),
            updateTotalLimit ⟨txs.take idx, b.totalGasLimit⟩)
        else
          let myGasPrice := gasPrice tx
          let replaced := txs.getD idx default
          let txs := txs.set idx tx
          if (txs[idx + 1]?.map fun next => decide (gasPrice next < myGasPrice)).getD false then
            ((replaced :: txs.drop (idx + 1), .ok ()),
              updateTotalLimit ⟨txs.take (idx + 1), b.totalGasLimit⟩)
          else ((replaced :: txs.drop truncateIdx, .ok ()), ⟨txs.take truncateIdx, addrGasLimit⟩)

/-- `split_off_inner`: cut at `index`, keep the prefix or the suffix, return the other part.
    Cutting everything off asks for the node to be deleted. -/
def splitOffInner (b : PackingBatch TX) (index : Nat) (keepPrefix : Bool) :
    Except RemoveError (List TX) × PackingBatch TX :=
  if index = 0 ∨ index ≥ b.txs.length then
    if (index = 0) != keepPrefix then (.ok [], b) else (.error .shouldDelete, b)
  else if keepPrefix then (.ok (b.txs.drop index), updateTotalLimit ⟨b.txs.take index, b.totalGasLimit⟩)
  else (.ok (b.txs.take index), updateTotalLimit ⟨b.txs.drop index, b.totalGasLimit⟩)

/-- `split_off_by_nonce`: the cut is at `nonce`, which goes with the suffix. `none` is the
    panic of the `U256` sum `start_nonce + len`, which the code takes once `nonce` is not below
    the start. -/
def splitOffByNonce (b : PackingBatch TX) (nonce : Nat) (keepPrefix : Bool) :
    Option (Except RemoveError (List TX) × PackingBatch TX) :=
  if nonce < b.startNonce then some (b.splitOffInner 0 keepPrefix)
  else (Checked.add 256 b.startNonce b.txs.length).map fun endNonce =>
    if nonce ≥ endNonce then b.splitOffInner b.txs.length keepPrefix
    else b.splitOffInner (nonce - b.startNonce) keepPrefix

end PackingBatch

end Mazze.Packing
