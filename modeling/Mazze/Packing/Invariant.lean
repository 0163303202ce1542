import Mazze.Packing.Pool

/-!
# Runs of the packing pool

A run starts from an empty pool and calls `insert`, `replace` (with a batch of one sender,
consecutive nonces and gas prices that do not decrease), `split_off_prefix`,
`split_off_suffix` and `remove`. A call that panics ends the run.
-/

set_option autoImplicit false

namespace Mazze.Packing

open Mazze.Treap PackingPoolTransaction

variable {TX Sender : Type} [PackingPoolTransaction TX Sender] [LinearOrder Sender] [Inhabited TX]

/-- A batch as `PackingBatch` documents it: non-empty, of one sender, with consecutive nonces
    and gas prices that do not decrease. -/
def PackingBatch.Chained (b : PackingBatch TX) : Prop :=
  b.txs ≠ [] ∧ (∀ tx ∈ b.txs, PackingPoolTransaction.sender tx = b.sender) ∧
    b.txs.IsChain (fun a c => nonce a + 1 = nonce c ∧ gasPrice a ≤ gasPrice c)

variable (nthInvRoot : Nat → Nat → Nat) (config : PackingPoolConfig)

/-- The pools a run reaches. -/
inductive PackingPool.Reachable : PackingPool TX Sender → Prop
  | new (rng : Stream' UInt64) : PackingPool.Reachable ⟨TreapMap.new (packingPoolMap TX) rng, config⟩
  | insert {p p' : PackingPool TX Sender} (tx : TX) {r : List TX × Except InsertError Unit} :
      PackingPool.Reachable p → p.insert nthInvRoot tx = some (r, p') → PackingPool.Reachable p'
  | replace {p p' : PackingPool TX Sender} (batch : PackingBatch TX) {r : List TX} :
      PackingPool.Reachable p → batch.Chained → p.replace nthInvRoot batch = some (r, p') →
      PackingPool.Reachable p'
  | splitOffPrefix {p p' : PackingPool TX Sender} (s : Sender) (startNonce : Nat) {r : List TX} :
      PackingPool.Reachable p → p.splitOffPrefix nthInvRoot s startNonce = some (r, p') →
      PackingPool.Reachable p'
  | splitOffSuffix {p p' : PackingPool TX Sender} (s : Sender) (startNonce : Nat) {r : List TX} :
      PackingPool.Reachable p → p.splitOffSuffix nthInvRoot s startNonce = some (r, p') →
      PackingPool.Reachable p'
  | remove {p p' : PackingPool TX Sender} (s : Sender) {r : List TX} :
      PackingPool.Reachable p → p.remove nthInvRoot s = some (r, p') → PackingPool.Reachable p'

/-- The pool after `insert` of each transaction in turn, or `none` once one of them panics. -/
def PackingPool.insertAll (p : PackingPool TX Sender) : List TX → Option (PackingPool TX Sender)
  | [] => some p
  | tx :: txs => (p.insert nthInvRoot tx).bind fun q => q.2.insertAll txs

variable {nthInvRoot config} in
/-- A run of inserts that does not panic ends at a pool a run reaches. -/
theorem PackingPool.Reachable.insertAll {p p' : PackingPool TX Sender}
    (hp : PackingPool.Reachable nthInvRoot config p) (txs : List TX)
    (h : p.insertAll nthInvRoot txs = some p') : PackingPool.Reachable nthInvRoot config p' := by
  induction txs generalizing p with
  | nil =>
    cases h
    exact hp
  | cons tx txs ih =>
    obtain ⟨⟨r, q⟩, hq, hrest⟩ := Option.bind_eq_some_iff.mp h
    exact ih (.insert tx hp hq) hrest

/-! ## A minimum gas price left behind -/

/-- Sender `7` may hold up to ten transactions and a gas limit of `100`; loss ratios of
    degree one. -/
def smallConfig : PackingPoolConfig := ⟨100, 10, 1, by decide, by decide⟩

/-- Sender `7`'s nonce `1` at gas price `10`. -/
def pricedTx : MockTransaction := ⟨0, 7, 1, 10, 1⟩

/-- Sender `7`'s nonce `0` at the lower gas price `5`. -/
def cheaperTx : MockTransaction := ⟨1, 7, 0, 5, 1⟩

/-- Any `nth_inv_root`: degree one does not use it. -/
def anyRoot : Nat → Nat → Nat := fun _ _ => 0

/-- The pool of `smallConfig` holding `pricedTx`. -/
def pricedPool : PackingPool MockTransaction Nat :=
  ((PackingPool.mk (TreapMap.new (packingPoolMap MockTransaction) fun _ => 0) smallConfig).insert
    anyRoot pricedTx).elim ⟨TreapMap.new (packingPoolMap MockTransaction) fun _ => 0, smallConfig⟩
    Prod.snd

/-- Inserting `cheaperTx` puts it in front of `pricedTx`, so the batch's first gas price drops
    from `10` to `5`. `make_apply_outcome` rewrites the sort key and the loss ratios for the
    new price but not `min_gas_price`, and the node goes in again with the weight it had:
    its `min_gas_price` stays `10`. -/
theorem minGasPrice_stale_after_cheaper_prefix :
    ∃ p : PackingPool MockTransaction Nat, PackingPool.Reachable anyRoot smallConfig p ∧
      ∃ n ∈ p.treapMap.root.toList, n.weight.minGasPrice = 10 ∧ n.value.firstGasPrice = 5 := by
  have hnew : PackingPool.Reachable anyRoot smallConfig
      (⟨TreapMap.new (packingPoolMap MockTransaction) fun _ => 0, smallConfig⟩ :
        PackingPool MockTransaction Nat) := .new _
  have hsome₁ : ((PackingPool.mk (TreapMap.new (packingPoolMap MockTransaction) fun _ => 0)
      smallConfig).insert anyRoot pricedTx).isSome := by
    decide +kernel
  obtain ⟨⟨r₁, p₁⟩, h₁⟩ := Option.isSome_iff_exists.mp hsome₁
  have hp₁ : pricedPool = p₁ := by
    rw [pricedPool, h₁]
    rfl
  have hsome₂ : (pricedPool.insert anyRoot cheaperTx).isSome := by
    decide +kernel
  obtain ⟨⟨r₂, p₂⟩, h₂⟩ := Option.isSome_iff_exists.mp hsome₂
  have hview : (pricedPool.insert anyRoot cheaperTx).map
      (fun q => q.2.treapMap.root.toList.map fun (n : PoolNode MockTransaction Nat) =>
        (n.weight.minGasPrice, n.value.firstGasPrice)) =
      some [(10, 5)] := by
    decide +kernel
  rw [h₂, Option.map_some, Option.some.injEq] at hview
  have hreach : PackingPool.Reachable anyRoot smallConfig p₂ :=
    .insert cheaperTx (.insert pricedTx hnew h₁) (hp₁ ▸ h₂)
  obtain ⟨n, hn, hpair⟩ : ∃ n ∈ p₂.treapMap.root.toList,
      (n.weight.minGasPrice, n.value.firstGasPrice) = (10, 5) :=
    List.mem_map.mp (hview ▸ List.mem_singleton_self _)
  exact ⟨p₂, hreach, n, hn, (Prod.mk.injEq _ _ _ _).mp hpair⟩

end Mazze.Packing
