import Mazze.Packing.Sample
import Mazze.Treap.Sums

/-!
# `truncate_loss_ratio` is the linear scan

`truncate_loss_ratio` walks the treap once: left while the weight before a node cannot be
sampled within the block, a stop at the node whose own weight breaks `can_sample`, right
otherwise. On the batches in treap order this is the scan for the longest prefix that can be
sampled (`truncateLossRatioScan`), and the two agree on every pool a run reaches
(`truncateLossRatio_eq_scan`).

Two facts carry it. The treap's cached sums are right on every reachable pool, since every
closure of the pool asks for a refresh when it changes a weight (`PackingPool.Reachable.treeOk`),
so the walk reads prefix weights (`accumulateWeightSearch_prefixSearch`). And `can_sample` is
closed under prefixes along any order, because every node's weighted loss ratio is its loss
ratio times its gas (`LossOk`) and the maximum loss ratio of a longer prefix bounds the shorter
one's: `canSample_of_consolidate`. That argument reads the saturating product exactly only while
the weighted loss ratios add up within `U256::MAX`, which the code's `U256` sums guarantee by
panicking; here the total is a hypothesis.
-/

set_option autoImplicit false

namespace Mazze.Packing

open Mazze.Treap PackingPoolTransaction

variable {TX Sender : Type}

/-- A weight whose weighted loss ratio is at most its loss ratio times its gas: `make_node`
    and `make_apply_outcome` write the product itself. -/
def PackingPoolWeight.LossOk (w : PackingPoolWeight) : Prop :=
  w.weightedLossRatio ≤ w.maxLossRatio * w.gasLimit

/-! ## Every closure of the pool keeps the sums -/

section Closures

variable (nthInvRoot : Nat → Nat → Nat)

theorem makeApplyOutcome_lossOk {T : Type} (oldInfo newInfo : PackInfo)
    {e : PoolEntry TX Sender} (config : PackingPoolConfig) (out : T) (he : e.weight.LossOk) :
    (makeApplyOutcome nthInvRoot oldInfo newInfo e config out).1.weight.LossOk := by
  unfold makeApplyOutcome
  split_ifs
  · exact (Nat.mul_comm _ _).le
  · exact (Nat.mul_comm _ _).le
  · exact he

/-- `make_apply_outcome` changes the weight only when it asks for a refresh. -/
theorem makeApplyOutcome_updateWeight {T : Type} (oldInfo newInfo : PackInfo)
    {e : PoolEntry TX Sender} (config : PackingPoolConfig) (out : T)
    (h : (makeApplyOutcome nthInvRoot oldInfo newInfo e config out).1.weight ≠ e.weight) :
    (makeApplyOutcome nthInvRoot oldInfo newInfo e config out).2.updateWeight = true := by
  unfold makeApplyOutcome at h ⊢
  split_ifs at h ⊢
  · rfl
  · rfl
  · exact absurd rfl h

variable [PackingPoolTransaction TX Sender] [Inhabited TX]

theorem makeNode_lossOk (b : PackingBatch TX) (config : PackingPoolConfig) (priority : UInt64) :
    ((b.makeNode nthInvRoot config priority : PoolNode TX Sender)).weight.LossOk :=
  le_refl _

variable [LinearOrder Sender] {nthInvRoot}

/-- The pool's `TreapMap` invariant: the sums `update_weight` caches, and `LossOk` of every
    node's weight. -/
abbrev PoolTreeOk (t : Tree Sender Nat (PackingBatch TX) PackingPoolWeight) : Prop :=
  TreeOk (packingPoolMap TX) PackingPoolWeight.LossOk t

theorem PackingPool.insert_treeOk {p p' : PackingPool TX Sender} {tx : TX}
    {r : List TX × Except InsertError Unit} (h : p.insert nthInvRoot tx = some (r, p'))
    (hp : PoolTreeOk p.treapMap.root) : PoolTreeOk p'.treapMap.root := by
  unfold PackingPool.insert at h
  obtain ⟨⟨r₀, m⟩, hupd, hres⟩ := Option.bind_eq_some_iff.mp h
  -- the call returns only when the closure did not panic, with the map the update left
  have hm : p'.treapMap = m := by
    rcases r₀ with ⟨⟩ | out
    · cases hres
    · exact (congrArg (·.2.treapMap) (Option.some.inj hres)).symm
  rw [hm]
  refine TreapMap.update_treeOk hp (fun e he => ?_) (fun e hne => ?_) (fun rng node ret rng' hins => ?_)
    hupd
  · dsimp only
    rcases hb : e.value.insert tx p.config with _ | ⟨out, batch⟩
    · exact he
    · exact makeApplyOutcome_lossOk nthInvRoot _ _ _ _ he
  · -- a panic keeps the entry, and an insert goes through `make_apply_outcome`
    dsimp only at hne ⊢
    rcases hb : e.value.insert tx p.config with _ | ⟨out, batch⟩ <;> simp only [hb] at hne ⊢
    · exact absurd rfl hne
    · exact ⟨_, rfl, by rw [makeApplyOutcome_updateWeight nthInvRoot _ _ _ _ hne]; rfl⟩
  · simp only [Prod.mk.injEq, Except.ok.injEq] at hins
    obtain ⟨⟨rfl, -⟩, -⟩ := hins
    exact makeNode_lossOk nthInvRoot _ _ _

theorem PackingPool.replace_treeOk {p p' : PackingPool TX Sender} {batch : PackingBatch TX}
    {r : List TX} (h : p.replace nthInvRoot batch = some (r, p'))
    (hp : PoolTreeOk p.treapMap.root) : PoolTreeOk p'.treapMap.root := by
  unfold PackingPool.replace at h
  obtain ⟨⟨r₀, m⟩, hupd, hres⟩ := Option.map_eq_some_iff.mp h
  obtain ⟨-, rfl⟩ := Prod.mk.inj hres
  refine TreapMap.update_treeOk hp (fun e he => ?_) (fun e hne => ?_) (fun rng node ret rng' hins => ?_)
    hupd
  · exact makeApplyOutcome_lossOk nthInvRoot _ _ _ _ he
  · exact ⟨_, rfl, by rw [makeApplyOutcome_updateWeight nthInvRoot _ _ _ _ hne]; rfl⟩
  · simp only [Prod.mk.injEq, Except.ok.injEq] at hins
    obtain ⟨⟨rfl, -⟩, -⟩ := hins
    exact makeNode_lossOk nthInvRoot _ _ _

theorem PackingPool.splitOff_treeOk {p p' : PackingPool TX Sender} {s : Sender} {startNonce : Nat}
    {keepPrefix : Bool} {r : List TX} (h : p.splitOff nthInvRoot s startNonce keepPrefix = some (r, p'))
    (hp : PoolTreeOk p.treapMap.root) : PoolTreeOk p'.treapMap.root := by
  unfold PackingPool.splitOff at h
  obtain ⟨⟨r₀, m⟩, hupd, hres⟩ := Option.bind_eq_some_iff.mp h
  -- the call returns only when the closure did not panic, with the map the update left
  have hm : p'.treapMap = m := by
    rcases r₀ with (_ | ⟨⟩) | out
    · cases hres
    · exact (congrArg (·.2.treapMap) (Option.some.inj hres)).symm
    · exact (congrArg (·.2.treapMap) (Option.some.inj hres)).symm
  rw [hm]
  refine TreapMap.update_treeOk hp (fun e he => ?_) (fun e hne => ?_) (fun rng node ret rng' hins => ?_)
    hupd
  · dsimp only
    split
    · exact he
    · exact he
    · exact makeApplyOutcome_lossOk nthInvRoot _ _ _ _ he
  · -- a panic keeps the entry, a deletion asks for it, and a cut goes through `make_apply_outcome`
    dsimp only at hne ⊢
    rcases hsplit : e.value.splitOffByNonce startNonce keepPrefix with _ | ⟨_ | out, batch⟩ <;>
      simp only [hsplit] at hne ⊢
    · exact absurd rfl hne
    · exact ⟨_, rfl, rfl⟩
    · exact ⟨_, rfl, by rw [makeApplyOutcome_updateWeight nthInvRoot _ _ _ _ hne]; rfl⟩
  · cases hins

/-- **Every pool a run reaches keeps the treap's sums and `LossOk`**, by induction on the run:
    each call goes through `TreapMap::update` with closures that keep both. -/
theorem PackingPool.Reachable.treeOk {config : PackingPoolConfig} {p : PackingPool TX Sender}
    (hp : PackingPool.Reachable nthInvRoot config p) : PoolTreeOk p.treapMap.root := by
  induction hp with
  | new rng => exact ⟨trivial, by simp [TreapMap.new]⟩
  | insert tx _ h ih => exact PackingPool.insert_treeOk h ih
  | replace batch _ _ h ih => exact PackingPool.replace_treeOk h ih
  | splitOffPrefix s n _ h ih => exact PackingPool.splitOff_treeOk h ih
  | splitOffSuffix s n _ h ih => exact PackingPool.splitOff_treeOk h ih
  | remove s _ h ih => exact PackingPool.splitOff_treeOk h ih

end Closures

/-! ## `can_sample` along prefixes -/

section Scan

variable [PackingPoolTransaction TX Sender] [LinearOrder Sender] [Inhabited TX]

section Fields

variable (a b : PackingPoolWeight)

@[simp] theorem consolidate_gasLimit :
    ((packingPoolMap TX).consolidate a b).gasLimit = a.gasLimit + b.gasLimit := rfl

@[simp] theorem consolidate_weightedLossRatio :
    ((packingPoolMap TX).consolidate a b).weightedLossRatio =
      a.weightedLossRatio + b.weightedLossRatio := rfl

@[simp] theorem consolidate_maxLossRatio :
    ((packingPoolMap TX).consolidate a b).maxLossRatio = max a.maxLossRatio b.maxLossRatio := rfl

end Fields

theorem packingPoolMap_assoc (a b c : PackingPoolWeight) :
    (packingPoolMap TX).consolidate ((packingPoolMap TX).consolidate a b) c =
      (packingPoolMap TX).consolidate a ((packingPoolMap TX).consolidate b c) := by
  simp only [packingPoolMap, PackingPoolWeight.mk.injEq]
  exact ⟨Nat.add_assoc _ _ _, min_assoc _ _ _, Nat.add_assoc _ _ _, max_assoc _ _ _⟩

theorem packingPoolMap_comm (a b : PackingPoolWeight) :
    (packingPoolMap TX).consolidate a b = (packingPoolMap TX).consolidate b a := by
  simp only [packingPoolMap, PackingPoolWeight.mk.injEq]
  exact ⟨Nat.add_comm _ _, min_comm _ _, Nat.add_comm _ _, max_comm _ _⟩

/-- Consolidating only adds weighted loss ratios. -/
theorem le_accumulate_weightedLossRatio (base : PackingPoolWeight) :
    ∀ nodes : List (PoolNode TX Sender),
      base.weightedLossRatio ≤ (accumulate (packingPoolMap TX) base nodes).weightedLossRatio
  | [] => le_refl _
  | n :: ns => by
    rw [accumulate_cons]
    refine le_trans ?_ (le_accumulate_weightedLossRatio _ ns)
    rw [consolidate_weightedLossRatio]
    exact Nat.le_add_right _ _

/-- **`can_sample` is closed under prefixes.** A prefix one node longer that can be sampled
    leaves a prefix that can: the longer prefix's loss ratio is the larger, and the node adds no
    more weighted loss than its loss ratio times its gas. The saturating product is read exactly
    while the weighted loss ratios fit a `U256`. -/
theorem canSample_of_consolidate {w v : PackingPoolWeight} (L : Nat) (hv : v.LossOk)
    (hfit : w.weightedLossRatio + v.weightedLossRatio ≤ U256MAX)
    (h : canSample ((packingPoolMap TX).consolidate w v) L = true) : canSample w L = true := by
  unfold canSample at h ⊢
  by_cases hw : w.gasLimit ≤ L
  · rw [if_pos hw]
  rw [if_neg hw]
  have hgas : ¬((packingPoolMap TX).consolidate w v).gasLimit ≤ L := by
    rw [consolidate_gasLimit]
    omega
  rw [if_neg hgas] at h
  have h' := of_decide_eq_true h
  simp only [saturatingMul, consolidate_gasLimit, consolidate_weightedLossRatio,
    consolidate_maxLossRatio] at h'
  apply decide_eq_true
  rw [saturatingMul]
  -- the longer prefix's loss ratio bounds both the node's and the shorter prefix's
  have hprod : max w.maxLossRatio v.maxLossRatio * (w.gasLimit + v.gasLimit - L) =
      max w.maxLossRatio v.maxLossRatio * (w.gasLimit - L) +
        max w.maxLossRatio v.maxLossRatio * v.gasLimit := by
    rw [← Nat.mul_add]
    congr 1
    omega
  have hnode : v.weightedLossRatio ≤ max w.maxLossRatio v.maxLossRatio * v.gasLimit :=
    le_trans hv (Nat.mul_le_mul_right _ (le_max_right _ _))
  have hshort : w.maxLossRatio * (w.gasLimit - L) ≤ max w.maxLossRatio v.maxLossRatio * (w.gasLimit - L) :=
    Nat.mul_le_mul_right _ (le_max_left _ _)
  -- below `U256::MAX` the saturated product is the product itself
  have hlt : max w.maxLossRatio v.maxLossRatio * (w.gasLimit + v.gasLimit - L) <
      w.weightedLossRatio + v.weightedLossRatio := by
    rcases min_cases (max w.maxLossRatio v.maxLossRatio * (w.gasLimit + v.gasLimit - L)) U256MAX with
      ⟨hmin, -⟩ | ⟨hmin, -⟩
    · rwa [hmin] at h'
    · rw [hmin] at h'
      omega
  exact lt_of_le_of_lt (min_le_left _ _) (by omega)

/-! ## The scan -/

/-- `W_k`: the weights of the first `k` batches in treap order, consolidated. -/
def prefixWeight (nodes : List (PoolNode TX Sender)) (k : Nat) : PackingPoolWeight :=
  accumulate (packingPoolMap TX) (packingPoolMap TX).empty (nodes.take k)

/-- `truncate_loss_ratio` as a linear scan over the batches in treap order: the longest prefix
    that can be sampled, and its weighted loss ratio over the gas beyond the block. -/
def truncateLossRatioScan (nodes : List (PoolNode TX Sender)) (blockGasLimit : Nat) : Option Nat :=
  let w := prefixWeight nodes
    (Nat.findGreatest (fun k => canSample (prefixWeight nodes k) blockGasLimit = true) nodes.length)
  if w.gasLimit > blockGasLimit then some (w.weightedLossRatio / (w.gasLimit - blockGasLimit))
  else none

/-- Along batches whose weights are `LossOk` and whose weighted loss ratios fit a `U256`,
    `can_sample` is closed under prefixes. -/
theorem canSample_prefix_step {all : List (PoolNode TX Sender)}
    (hloss : ∀ n ∈ all, n.weight.LossOk)
    (hfit : (accumulate (packingPoolMap TX) (packingPoolMap TX).empty all).weightedLossRatio ≤ U256MAX)
    (L : Nat) (ys : List (PoolNode TX Sender)) (m : PoolNode TX Sender) (zs : List (PoolNode TX Sender))
    (hall : all = ys ++ m :: zs)
    (h : canSample (accumulate (packingPoolMap TX) (packingPoolMap TX).empty (ys ++ [m])) L = true) :
    canSample (accumulate (packingPoolMap TX) (packingPoolMap TX).empty ys) L = true := by
  subst hall
  rw [accumulate_append_singleton] at h
  refine canSample_of_consolidate L (hloss m (by simp)) ?_ h
  calc _ = ((packingPoolMap TX).consolidate
          (accumulate (packingPoolMap TX) (packingPoolMap TX).empty ys) m.weight).weightedLossRatio :=
        (consolidate_weightedLossRatio _ _).symm
    _ ≤ (accumulate (packingPoolMap TX) ((packingPoolMap TX).consolidate
          (accumulate (packingPoolMap TX) (packingPoolMap TX).empty ys) m.weight) zs).weightedLossRatio :=
        le_accumulate_weightedLossRatio _ zs
    _ = (accumulate (packingPoolMap TX) (packingPoolMap TX).empty (ys ++ m :: zs)).weightedLossRatio := by
        rw [accumulate_append, accumulate_cons]
    _ ≤ U256MAX := hfit

/-- The walk of `truncate_loss_ratio` ends where the scan does: at the right end when every
    prefix can be sampled, else at the batch after the longest prefix that can, with that
    prefix's weight. -/
theorem truncateSearch_eq_scan {root : PoolNode TX Sender} {l r : Tree Sender Nat (PackingBatch TX) PackingPoolWeight}
    (hs : SumsOk (packingPoolMap TX) (.node root l r))
    (hloss : ∀ n ∈ (BinTree.node root l r).toList, n.weight.LossOk)
    (hfit : (accumulate (packingPoolMap TX) (packingPoolMap TX).empty
      (BinTree.node root l r).toList).weightedLossRatio ≤ U256MAX) (L : Nat) :
    ∃ res, accumulateWeightSearch (packingPoolMap TX)
        (prefixSearch (packingPoolMap TX) fun w => canSample w L) root l r = res ∧
      (res = .rightMost (prefixWeight (BinTree.node root l r).toList
          (Nat.findGreatest (fun k => canSample (prefixWeight (BinTree.node root l r).toList k) L = true)
            (BinTree.node root l r).toList.length)) ∨
        ∃ m, res = .found (prefixWeight (BinTree.node root l r).toList
          (Nat.findGreatest (fun k => canSample (prefixWeight (BinTree.node root l r).toList k) L = true)
            (BinTree.node root l r).toList.length)) m) := by
  obtain ⟨-, hright, hfound⟩ := accumulateWeightSearch_prefixSearch (P := fun w => canSample w L)
    packingPoolMap_assoc packingPoolMap_comm root l r hs (canSample_prefix_step hloss hfit L)
  set all := (BinTree.node root l r).toList
  -- the empty prefix has no gas, so the longest prefix that can be sampled is well defined
  have hP0 : canSample (prefixWeight all 0) L = true := by
    simp [prefixWeight, canSample, packingPoolMap]
  have hPk := Nat.findGreatest_spec (P := fun k => canSample (prefixWeight all k) L = true)
    (Nat.zero_le all.length) hP0
  have hkle := Nat.findGreatest_le (P := fun k => canSample (prefixWeight all k) L = true) all.length
  have hgreat : ∀ j, Nat.findGreatest (fun k => canSample (prefixWeight all k) L = true) all.length < j →
      j ≤ all.length → ¬canSample (prefixWeight all j) L = true :=
    fun _ => Nat.findGreatest_is_greatest
  generalize Nat.findGreatest (fun k => canSample (prefixWeight all k) L = true) all.length = k
    at hPk hkle hgreat ⊢
  rcases hkle.lt_or_eq with hlt | heq
  · -- the prefix one batch longer cannot be sampled: the walk stops at that batch
    have hnext : canSample (prefixWeight all (k + 1)) L = false := by
      simpa using hgreat (k + 1) (Nat.lt_succ_self k) hlt
    have hsplit : all = all.take k ++ all[k] :: all.drop (k + 1) := by
      rw [List.getElem_cons_drop, List.take_append_drop]
    have htake : all.take (k + 1) = all.take k ++ [all[k]] := (List.take_concat_get' all k hlt).symm
    refine ⟨_, rfl, .inr ⟨all[k], hfound _ _ _ hsplit hPk ?_⟩⟩
    rw [prefixWeight, htake] at hnext
    exact hnext
  · -- every prefix can be sampled: the walk ends at the right with the total
    subst heq
    rw [prefixWeight, List.take_length] at hPk
    refine ⟨_, rfl, .inl ?_⟩
    rw [hright hPk, prefixWeight, List.take_length]

/-- `truncate_loss_ratio`'s callback is the prefix pattern of `can_sample`. -/
theorem truncateLossRatio_eq (p : PackingPool TX Sender) (L : Nat) :
    p.truncateLossRatio L =
      match p.treapMap.search (packingPoolMap TX)
          (prefixSearch (packingPoolMap TX) fun w => canSample w L) with
      | some (.found b _) | some (.rightMost b) =>
        if b.gasLimit > L then some (b.weightedLossRatio / (b.gasLimit - L)) else none
      | _ => none :=
  rfl

/-- **`truncate_loss_ratio` is the linear scan** on every pool a run reaches whose weighted loss
    ratios add up within a `U256`, as the code's sums must. -/
theorem truncateLossRatio_eq_scan {nthInvRoot : Nat → Nat → Nat} {config : PackingPoolConfig}
    {p : PackingPool TX Sender} (hp : PackingPool.Reachable nthInvRoot config p) (blockGasLimit : Nat)
    (hfit : (p.treapMap.sumWeight (packingPoolMap TX)).weightedLossRatio ≤ U256MAX) :
    p.truncateLossRatio blockGasLimit =
      truncateLossRatioScan p.treapMap.root.toList blockGasLimit := by
  obtain ⟨hsums, hloss⟩ := hp.treeOk
  rw [truncateLossRatio_eq]
  unfold TreapMap.sumWeight at hfit
  unfold TreapMap.search
  rcases hroot : p.treapMap.root with _ | ⟨root, l, r⟩
  · -- an empty pool: no search, and the scan stops at the empty prefix
    simp [truncateLossRatioScan, prefixWeight, packingPoolMap]
  · rw [hroot] at hsums hloss hfit
    -- the total the treap caches is the weight of all the batches in order
    have htotal : (accumulate (packingPoolMap TX) (packingPoolMap TX).empty
        (BinTree.node root l r).toList).weightedLossRatio = root.sumWeight.weightedLossRatio := by
      rw [← accureChild_eq_accumulate packingPoolMap_assoc packingPoolMap_comm _ _ hsums, accureChild,
        consolidate_weightedLossRatio]
      exact Nat.zero_add _
    have hloss' : ∀ n ∈ (BinTree.node root l r).toList, n.weight.LossOk := fun n hn =>
      hloss n.toEntry (List.mem_map_of_mem hn)
    obtain ⟨res, hres, hcases⟩ := truncateSearch_eq_scan hsums hloss' (htotal ▸ hfit) blockGasLimit
    simp only [hres]
    rcases hcases with rfl | ⟨m, rfl⟩
    · rfl
    · rfl

end Scan

/-- Senders `1` and `2` at gas price `10` and sender `3` at gas price `1`, one transaction of
    gas `60` each. -/
def threeBatchTxs : List MockTransaction := [⟨0, 1, 0, 10, 60⟩, ⟨1, 2, 0, 10, 60⟩, ⟨2, 3, 0, 1, 60⟩]

/-- Three batches of `60` gas against a block of `100`: the first two can be sampled together,
    the third's loss ratio is ten times theirs and breaks `can_sample`, so the walk stops there and
    the answer is a ratio over the `20` gas beyond the block. -/
theorem truncateLossRatio_eq_scan_threeBatches :
    ∃ p : PackingPool MockTransaction Nat, PackingPool.Reachable anyRoot smallConfig p ∧
      (p.treapMap.sumWeight (packingPoolMap MockTransaction)).weightedLossRatio ≤ U256MAX ∧
      p.treapMap.root.toList.length = 3 ∧ (p.truncateLossRatio 100).isSome = true ∧
      p.truncateLossRatio 100 = truncateLossRatioScan p.treapMap.root.toList 100 := by
  have hnew : PackingPool.Reachable anyRoot smallConfig
      (⟨TreapMap.new (packingPoolMap MockTransaction) fun _ => 0, smallConfig⟩ :
        PackingPool MockTransaction Nat) := .new _
  have hsome : ((PackingPool.mk (TreapMap.new (packingPoolMap MockTransaction) fun _ => 0)
      smallConfig).insertAll anyRoot threeBatchTxs).isSome := by
    decide +kernel
  obtain ⟨p, hins⟩ := Option.isSome_iff_exists.mp hsome
  have hrun : ((PackingPool.mk (TreapMap.new (packingPoolMap MockTransaction) fun _ => 0)
      smallConfig).insertAll anyRoot threeBatchTxs).map (fun q =>
        (decide ((q.treapMap.sumWeight (packingPoolMap MockTransaction)).weightedLossRatio ≤
          U256MAX), q.treapMap.root.toList.length, (q.truncateLossRatio 100).isSome)) =
      some (true, 3, true) := by
    decide +kernel
  rw [hins, Option.map_some, Option.some.injEq, Prod.mk.injEq, Prod.mk.injEq,
    decide_eq_true_eq] at hrun
  obtain ⟨hfit, hlen, hanswer⟩ := hrun
  have hreach : PackingPool.Reachable anyRoot smallConfig p := hnew.insertAll threeBatchTxs hins
  exact ⟨p, hreach, hfit, hlen, hanswer, truncateLossRatio_eq_scan hreach 100 hfit⟩

end Mazze.Packing
