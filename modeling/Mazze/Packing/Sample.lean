import Mazze.Packing.Invariant

/-!
# Sampling senders from the packing pool

`packing-pool/src/sample.rs` and `PackingPool::tx_sampler`. When the pool holds more gas than
a block, `truncate_loss_ratio` finds by a weight search the loss ratio at which the pool is
cut, and its inverse is the `loss_base` of the random packing algorithm. The sampler then walks
the treap from the highest first gas price down. In the random phase each sender is picked
with a probability set by its loss ratio; one not picked goes to a candidate queue, ordered by
how close its draw came. After the walk the queue is emptied, highest priority first, and what
the walk did not reach comes out last in treap order.

The candidate queue is a `HeapMap` of the `heap-map` crate, here the list of its entries: it
replaces the entry of a key it already has and pops an entry of the highest priority. A `u64`
is a natural number with the bound `u64::MAX` checked where the code does arithmetic on it.
-/

set_option autoImplicit false

namespace Mazze.Packing

open Mazze.Treap PackingPoolTransaction

variable {TX Sender : Type} [PackingPoolTransaction TX Sender] [LinearOrder Sender] [Inhabited TX]

/-- `u64::MAX`. -/
def U64MAX : Nat := 2 ^ 64 - 1

/-- `U256::checked_mul`. -/
def checkedMul (a b : Nat) : Option Nat := if a * b ≤ U256MAX then some (a * b) else none

/-- `U256::saturating_mul`. -/
def saturatingMul (a b : Nat) : Nat := min (a * b) U256MAX

/-- `can_sample`: within the gas limit, or the loss ratio of the part beyond it still below
    the weighted loss ratio. -/
def canSample (weight : PackingPoolWeight) (gasLimit : Nat) : Bool :=
  if weight.gasLimit ≤ gasLimit then true
  else decide (saturatingMul weight.maxLossRatio (weight.gasLimit - gasLimit) < weight.weightedLossRatio)

/-- `truncate_loss_ratio`: the search stops at the first node that cannot be sampled with
    everything before it; the loss ratio is cut where the gas before it passes the block. -/
def PackingPool.truncateLossRatio (p : PackingPool TX Sender) (blockGasLimit : Nat) : Option Nat :=
  let ret := p.treapMap.search (packingPoolMap TX) fun leftWeight node =>
    if !canSample leftWeight blockGasLimit then .left
    else
      let rightWeight := (packingPoolMap TX).consolidate leftWeight node.weight
      if !canSample rightWeight blockGasLimit then .stop else .right rightWeight
  match ret with
  | some (.found baseWeight _) | some (.rightMost baseWeight) =>
    if baseWeight.gasLimit > blockGasLimit then
      some (baseWeight.weightedLossRatio / (baseWeight.gasLimit - blockGasLimit))
    else none
  | _ => none

/-- `SampleTag`. -/
inductive SampleTag where
  | randomPick
  | candidateAddress
  | priceDesc
  deriving DecidableEq, Repr

/-- A panic of the sampler. -/
inductive SamplePanic where
  /-- `U256::MAX / r` with `r = 0`. -/
  | divisionByZero
  /-- `sampled + 1` on a `u64`, with overflow checks on. -/
  | addOverflow
  deriving DecidableEq, Repr

/-- `CandidateAddress`: ordered by its `f64` priority. -/
structure CandidateAddress (TX Sender : Type) where
  node : PoolNode TX Sender
  priority : Float

/-- `HeapMap<Sender, CandidateAddress>` as its entries. -/
abbrev CandidateQueue (TX Sender : Type) := List (Sender × CandidateAddress TX Sender)

/-- `HeapMap::insert`: replace the value of a key it has, else add the entry. -/
def CandidateQueue.insert (q : CandidateQueue TX Sender) (key : Sender)
    (value : CandidateAddress TX Sender) : CandidateQueue TX Sender :=
  if q.any fun e => e.1 == key then q.map fun e => if e.1 == key then (key, value) else e
  else q ++ [(key, value)]

/-- The first entry of the highest priority, and the rest. -/
def CandidateQueue.popFrom :
    (Sender × CandidateAddress TX Sender) → CandidateQueue TX Sender →
      (Sender × CandidateAddress TX Sender) × CandidateQueue TX Sender
  | best, [] => (best, [])
  | best, e :: q =>
    if best.2.priority < e.2.priority then
      let (top, rest) := CandidateQueue.popFrom e q
      (top, best :: rest)
    else
      let (top, rest) := CandidateQueue.popFrom best q
      (top, e :: rest)

/-- `HeapMap::pop`. -/
def CandidateQueue.pop : CandidateQueue TX Sender →
    Option ((Sender × CandidateAddress TX Sender) × CandidateQueue TX Sender)
  | [] => none
  | e :: q => some (CandidateQueue.popFrom e q)

/-- What the sampler yields: a sender, its transactions, and the phase that yielded it. -/
abbrev SampleItem (TX Sender : Type) := Sender × List TX × SampleTag

/-- `TxSampler`. -/
structure TxSampler (TX Sender : Type) where
  iter : Iter Sender Nat (PackingBatch TX) PackingPoolWeight
  firstUnsample : Option (PoolNode TX Sender)
  randomSamplePhase : Bool
  candidateQueue : CandidateQueue TX Sender
  lossBase : Nat
  rng : Stream' UInt64

namespace TxSampler

/-- `TxSampler::new`. -/
def new (iter : Iter Sender Nat (PackingBatch TX) PackingPoolWeight) (lossBase : Nat)
    (rng : Stream' UInt64) : TxSampler TX Sender :=
  ⟨iter, none, true, [], lossBase, rng⟩

/-- `price_desc_next`: the node the random phase stopped at, then the rest of the walk. -/
def priceDescNext (s : TxSampler TX Sender) : Option (SampleItem TX Sender) × TxSampler TX Sender :=
  match s.firstUnsample with
  | some node => (some (node.key, node.value.txs, .priceDesc), { s with firstUnsample := none })
  | none =>
    match Iter.next s.iter with
    | some (node, iter) => (some (node.key, node.value.txs, .priceDesc), { s with iter := iter })
    | none => (none, s)

/-- `candidate_next`. -/
def candidateNext (s : TxSampler TX Sender) :
    Option (SampleItem TX Sender) × TxSampler TX Sender :=
  match s.candidateQueue.pop with
  | some ((addr, candidate), q) =>
    (some (addr, candidate.node.value.txs, .candidateAddress), { s with candidateQueue := q })
  | none => (none, s)

set_option linter.unusedVariables false in
/-- `random_sample`: walk on until a sender is picked. A loss ratio too large to multiply
    ends the random phase at its node. `(x >> 192).as_u64()` fits, as `x < 2^256`. -/
def randomSample (s : TxSampler TX Sender) :
    Except SamplePanic (Option (SampleItem TX Sender) × TxSampler TX Sender) :=
  match hiter : s.iter with
  | [] => .ok (none, s)
  | (node, r) :: st =>
    let s := { s with iter := Iter.extendPath r st }
    match checkedMul s.lossBase node.weight.maxLossRatio with
    | none => .ok (none, { s with randomSamplePhase := false, firstUnsample := some node })
    | some x =>
      let lossThreshold := x >>> 192
      -- `(u64::MAX - loss_threshold).saturating_add(1)`
      let targetQuality := min (U64MAX - lossThreshold + 1) U64MAX
      let sampled := s.rng.head.toNat
      let s := { s with rng := s.rng.tail }
      if sampled < targetQuality then .ok (some (node.key, node.value.txs, .randomPick), s)
      else if sampled + 1 > U64MAX then .error .addOverflow
      else
        randomSample { s with
          candidateQueue := s.candidateQueue.insert node.key
            ⟨node, Float.ofNat targetQuality / Float.ofNat (sampled + 1)⟩ }
termination_by Iter.remaining s.iter
decreasing_by
  simp only [hiter, Iter.remaining, Iter.remaining_extendPath]
  omega

/-- `Iterator::next` of `TxSampler`. -/
def next (s : TxSampler TX Sender) :
    Except SamplePanic (Option (SampleItem TX Sender) × TxSampler TX Sender) := do
  -- the pool fits in the block: everything in price order
  if s.lossBase = 0 then return s.priceDescNext
  let (res, s) ← if s.randomSamplePhase then s.randomSample else pure (none, s)
  if res.isSome then return (res, s)
  let (res, s) := s.candidateNext
  if res.isSome then return (res, s)
  return s.priceDescNext

end TxSampler

/-- `tx_sampler`: the loss base is the inverse of the truncated loss ratio, zero when the pool
    fits in the block. -/
def PackingPool.txSampler (p : PackingPool TX Sender) (rng : Stream' UInt64)
    (blockGasLimit : Nat) : Except SamplePanic (TxSampler TX Sender) :=
  match p.truncateLossRatio blockGasLimit with
  | some r =>
    if r = 0 then .error .divisionByZero
    else .ok (TxSampler.new p.treapMap.iter (U256MAX / r) rng)
  | none => .ok (TxSampler.new p.treapMap.iter 0 rng)

/-! ## A draw of `u64::MAX` -/

/-- Sender `7`'s nonce `0`, with twice the gas of the block below, at gas price `1`. -/
def heavyTx : MockTransaction := ⟨0, 7, 0, 1, 2⟩

/-- The pool of `smallConfig` holding `heavyTx`. -/
def heavyPool : PackingPool MockTransaction Nat :=
  ((PackingPool.mk (TreapMap.new (packingPoolMap MockTransaction) fun _ => 0) smallConfig).insert
    anyRoot heavyTx).elim ⟨TreapMap.new (packingPoolMap MockTransaction) fun _ => 0, smallConfig⟩
    Prod.snd

/-- A random source that always returns `u64::MAX`. -/
def maxDraws : Stream' UInt64 := fun _ => 18446744073709551615

/-- The pool does not fit a block of gas limit `1`, so the loss base is not zero and the
    random phase draws for the first sender. A draw of `u64::MAX` is never below the target
    quality, and computing the candidate's priority adds one to it: the first `next` panics
    before any sender is yielded. -/
theorem txSampler_overflows_on_max_draw :
    ∃ p : PackingPool MockTransaction Nat, PackingPool.Reachable anyRoot smallConfig p ∧
      ∃ s, p.txSampler maxDraws 1 = .ok s ∧ s.next = .error .addOverflow := by
  have hsome : ((PackingPool.mk (TreapMap.new (packingPoolMap MockTransaction) fun _ => 0)
      smallConfig).insert anyRoot heavyTx).isSome := by
    decide +kernel
  obtain ⟨⟨r, p⟩, hp⟩ := Option.isSome_iff_exists.mp hsome
  have hheavy : heavyPool = p := by
    rw [heavyPool, hp]
    rfl
  have hreach : PackingPool.Reachable anyRoot smallConfig p := .insert heavyTx (.new _) hp
  have hrun : ((heavyPool.txSampler maxDraws 1).bind TxSampler.next).map (fun _ => ()) =
      .error .addOverflow := by
    decide +kernel
  have hok : (heavyPool.txSampler maxDraws 1).isOk := by
    decide +kernel
  rw [hheavy] at hrun hok
  cases hs : p.txSampler maxDraws 1 with
  | error e =>
    rw [hs] at hok
    cases hok
  | ok s =>
    refine ⟨p, hreach, s, hs, ?_⟩
    rw [hs] at hrun
    cases hn : s.next with
    | ok v =>
      rw [Except.bind, hn] at hrun
      cases hrun
    | error e =>
      rw [Except.bind, hn] at hrun
      cases hrun
      rfl

end Mazze.Packing
