import Mazze.Packing.Batch
import Mazze.Treap.Map

/-!
# The packing pool

`packing-pool/src/pool.rs`, `weight.rs`, `key_mng.rs` and `treapmap_config.rs`. The pool is a
`TreapMap` from a sender to its `PackingBatch`, sorted by the batch's first gas price, highest
first. A node's weight carries what the random packing algorithm needs over a prefix of the
treap: the gas limit and the weighted loss ratio summed, the loss ratio at its maximum and the
gas price at its minimum. Every change to a batch goes through `TreapMap::update`, and
`make_apply_outcome` rewrites the node's sort key and weight for what it sees has changed.
-/

set_option autoImplicit false

namespace Mazze.Packing

open Mazze.Treap PackingPoolTransaction

/-- `PackingPoolWeight`. -/
structure PackingPoolWeight where
  gasLimit : Nat
  minGasPrice : Nat
  weightedLossRatio : Nat
  maxLossRatio : Nat
  deriving DecidableEq, Repr

/-- `PackingPoolExtMap`: the `HashMap` from a sender to the first gas price of its batch, as
    an association list without repeated keys. -/
structure PackingPoolExtMap (K : Type) where
  entries : List (K × Nat)
  deriving DecidableEq, Repr

namespace PackingPoolExtMap

variable {K : Type} [DecidableEq K]

/-- `HashMap::insert`. -/
def insert (m : PackingPoolExtMap K) (k : K) (v : Nat) : PackingPoolExtMap K :=
  ⟨(k, v) :: m.entries.filter fun e => e.1 != k⟩

/-- `HashMap::remove`. -/
def remove (m : PackingPoolExtMap K) (k : K) : PackingPoolExtMap K :=
  ⟨m.entries.filter fun e => e.1 != k⟩

end PackingPoolExtMap

/-- `PackingPool`. -/
structure PackingPool (TX Sender : Type) where
  treapMap : TreapMap Sender Nat (PackingBatch TX) PackingPoolWeight (PackingPoolExtMap Sender)
  config : PackingPoolConfig

variable (TX : Type) {Sender : Type} [PackingPoolTransaction TX Sender] [LinearOrder Sender]
  [Inhabited TX]

/-- `PackingPoolMap`: the higher first gas price goes left, ties by sender; the ext map gives
    a sender's sort key. -/
def packingPoolMap : TreapMapConfig Sender Nat (PackingBatch TX) PackingPoolWeight
    (PackingPoolExtMap Sender) where
  nextNodeDir me other :=
    match compare me.1 other.1 with
    | .gt => some .left
    | .lt => some .right
    | .eq =>
      match compare me.2 other.2 with
      | .lt => some .left
      | .eq => none
      | .gt => some .right
  empty := ⟨0, U256MAX, 0, 0⟩
  consolidate a b :=
    ⟨a.gasLimit + b.gasLimit, min a.minGasPrice b.minGasPrice,
      a.weightedLossRatio + b.weightedLossRatio, max a.maxLossRatio b.maxLossRatio⟩
  viewUpdate m k value oldValue :=
    match value, oldValue with
    | some v, _ => m.insert k v.firstGasPrice
    | none, some _ => m.remove k
    | none, none => m
  len m := m.entries.length
  getSortKey m k := m.entries.lookup k
  makeSortKey _ _ v := v.firstGasPrice
  default := ⟨[]⟩

variable {TX} (nthInvRoot : Nat → Nat → Nat)

/-- A treap node of the pool. -/
abbrev PoolNode (TX Sender : Type) := Node Sender Nat (PackingBatch TX) PackingPoolWeight

/-- What a pool's `update` closure may write. -/
abbrev PoolEntry (TX Sender : Type) := Entry Sender Nat (PackingBatch TX) PackingPoolWeight

/-- `PackingBatch::make_node`: the sort key and the minimum price are the first gas price. -/
def PackingBatch.makeNode (b : PackingBatch TX) (config : PackingPoolConfig) (priority : UInt64) :
    PoolNode TX Sender :=
  let gasPrice := b.firstGasPrice
  let lossRatio := config.lossRatio nthInvRoot gasPrice
  Node.new b.sender b gasPrice ⟨b.totalGasLimit, gasPrice, lossRatio * b.totalGasLimit, lossRatio⟩
    priority

/-- `make_apply_outcome`: a new first gas price rewrites the sort key, the loss ratios and the
    gas limit of the weight and asks for the node to be placed again; a new gas limit alone
    rewrites the gas limit and the weighted loss ratio. -/
def makeApplyOutcome {T : Type} (oldInfo newInfo : PackInfo) (e : PoolEntry TX Sender)
    (config : PackingPoolConfig) (out : T) : PoolEntry TX Sender × ApplyOpOutcome T :=
  if oldInfo.firstGasPrice ≠ newInfo.firstGasPrice then
    let gasPrice := newInfo.firstGasPrice
    let maxLossRatio := config.lossRatio nthInvRoot gasPrice
    ({ e with
        sortKey := gasPrice
        weight := { e.weight with
          maxLossRatio := maxLossRatio
          gasLimit := newInfo.totalGasLimit
          weightedLossRatio := newInfo.totalGasLimit * maxLossRatio } },
      ⟨out, true, true, false⟩)
  else if oldInfo.totalGasLimit ≠ newInfo.totalGasLimit then
    ({ e with
        weight := { e.weight with
          gasLimit := newInfo.totalGasLimit
          weightedLossRatio := newInfo.totalGasLimit * e.weight.maxLossRatio } },
      ⟨out, true, false, false⟩)
  else (e, ⟨out, false, false, false⟩)

/-- `Result<T, Infallible>::unwrap`. -/
def unwrapInfallible {α : Type} : Except Empty α → α
  | .ok a => a
  | .error e => e.elim

namespace PackingPool

/-- `insert`: the transactions the batch dropped and whether `tx` went in; `none` is a panic.
    The closure's error type is `Infallible`; a panic of `PackingBatch::insert` inside it is
    the closure's `.error ()` here, and ends the call. -/
def insert (p : PackingPool TX Sender) (tx : TX) :
    Option ((List TX × Except InsertError Unit) × PackingPool TX Sender) :=
  let config := p.config
  let update (e : PoolEntry TX Sender) :
      PoolEntry TX Sender × Except Unit (ApplyOpOutcome (List TX × Except InsertError Unit)) :=
    let oldInfo := e.value.packInfo
    match e.value.insert tx config with
    | none => (e, .error ())
    | some (out, batch) =>
      let (e, outcome) := makeApplyOutcome nthInvRoot oldInfo batch.packInfo
        { e with value := batch } config out
      (e, .ok outcome)
  let insert (rng : Stream' UInt64) :
      Except Unit (PoolNode TX Sender × (List TX × Except InsertError Unit)) × Stream' UInt64 :=
    (.ok ((PackingBatch.new tx).makeNode nthInvRoot config rng.head, ([], .ok ())), rng.tail)
  (p.treapMap.update (packingPoolMap TX) (sender tx) update insert).bind fun (r, m) =>
    match r with
    | .ok out => some (out, { p with treapMap := m })
    | .error () => none

/-- `replace`: put `batch` in the place of the sender's batch, returning the old transactions. -/
def replace (p : PackingPool TX Sender) (batch : PackingBatch TX) :
    Option (List TX × PackingPool TX Sender) :=
  let config := p.config
  let update (e : PoolEntry TX Sender) :
      PoolEntry TX Sender × Except Empty (ApplyOpOutcome (List TX)) :=
    let oldInfo := e.value.packInfo
    -- `mem::swap` puts `batch` in the node and the old batch's transactions are the output
    let (e, outcome) := makeApplyOutcome nthInvRoot oldInfo batch.packInfo { e with value := batch }
      config e.value.txs
    (e, .ok outcome)
  let insert (rng : Stream' UInt64) :=
    (.ok (batch.makeNode nthInvRoot config rng.head, []), rng.tail)
  (p.treapMap.update (packingPoolMap TX) batch.sender update insert).map fun (r, m) =>
    (unwrapInfallible r, { p with treapMap := m })

/-- `split_off`: cut the sender's batch at `startNonce`; a batch cut down to nothing is
    deleted (`make_outcome_on_delete` takes its transactions). An absent sender gives
    nothing. The closure's `Err(())` is `some ()`; a panic in the closure leaves it as `none`
    and ends the call. -/
def splitOff (p : PackingPool TX Sender) (sender : Sender) (startNonce : Nat)
    (keepPrefix : Bool) :
    Option (List TX × PackingPool TX Sender) :=
  let config := p.config
  let update (e : PoolEntry TX Sender) :
      PoolEntry TX Sender × Except (Option Unit) (ApplyOpOutcome (List TX)) :=
    let oldInfo := e.value.packInfo
    match e.value.splitOffByNonce startNonce keepPrefix with
    | none => (e, .error none)
    | some (.error .shouldDelete, batch) =>
      ({ e with value := { batch with txs := [] } }, .ok ⟨batch.txs, false, false, true⟩)
    | some (.ok out, batch) =>
      let (e, outcome) := makeApplyOutcome nthInvRoot oldInfo batch.packInfo { e with value := batch }
        config out
      (e, .ok outcome)
  let insert (rng : Stream' UInt64) :
      Except (Option Unit) (PoolNode TX Sender × List TX) × Stream' UInt64 := (.error (some ()), rng)
  (p.treapMap.update (packingPoolMap TX) sender update insert).bind fun (r, m) =>
    match r with
    | .ok out => some (out, { p with treapMap := m })
    | .error (some ()) => some ([], { p with treapMap := m })
    | .error none => none

/-- `split_off_suffix`. -/
def splitOffSuffix (p : PackingPool TX Sender) (sender : Sender) (startNonce : Nat) :
    Option (List TX × PackingPool TX Sender) :=
  p.splitOff nthInvRoot sender startNonce true

/-- `split_off_prefix`. -/
def splitOffPrefix (p : PackingPool TX Sender) (sender : Sender) (startNonce : Nat) :
    Option (List TX × PackingPool TX Sender) :=
  p.splitOff nthInvRoot sender startNonce false

/-- `remove`: the whole batch is the suffix from nonce zero. -/
def remove (p : PackingPool TX Sender) (sender : Sender) :
    Option (List TX × PackingPool TX Sender) :=
  p.splitOffSuffix nthInvRoot sender 0

end PackingPool

end Mazze.Packing
