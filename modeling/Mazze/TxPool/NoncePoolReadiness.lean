import Mathlib
import Mazze.Lib.Loop
import Mazze.TxPool.NoncePoolSearch

/-!
# Readiness of a sender's transactions, against the test's reference loop

`recalculate_readiness_with_local_info(nonce, balance)` answers which of a sender's pooled
transactions can be packed next: the first unpacked one from `nonce` on, provided every nonce
from `nonce` up to it is in the pool and the balance pays for all of them, together with the
last nonce of the run after it that can be packed too. The code gets there with three weight
searches over the treap; the test module of `nonce_pool/mod.rs` checks it against a plain loop
over a `BTreeMap` with the same transactions.

Over the nodes in nonce order from `nonce` on, readiness is `readiness`: `firstReady` walks them
one at a time as the test's first loop does, and `readyRun` (from `NoncePoolSearch`) is the
run after it. Both sides are shown equal to it:

* on every pool that keeps `NoncePoolMap.Inv`, the code never panics and returns `readiness`,
  with the run cut at `2^32 - 1` nonces where `continous_ready_nonce` turns back
  (`NoncePool.recalculateReadinessWithLocalInfo_eq`): the size and cost differences of the
  two weights are the counts and costs of the nodes between, so its check is `firstReady`'s;
* the test's two loops compute `readiness` whenever they read a map with those nodes and have
  more fuel than there are nodes (`NoncePoolTest.recalculateReadinessWithLocalInfo_eq`), by
  induction on the nodes with one turn of the loop per node.
-/

set_option autoImplicit false

namespace Mazze.TxPool

open Mazze.Treap Mazze.Packing PackingPoolTransaction NoncePoolWeight

variable {TX Sender Hash : Type} [PoolTransaction TX Sender Hash]

namespace NoncePoolMap

/-! ## Readiness over the nodes in nonce order -/

/-- The first transaction that can be packed, from nonce `k` on with balance `bal`: the nonces
    follow on from `k` and the balance pays for each transaction in turn, packed ones included.
    The first unpacked one is returned with the balance left after it and the nodes after it. -/
def firstReady : Nat → Nat → List (PoolNode TX) → Option (PoolNode TX × Nat × List (PoolNode TX))
  | _, _, [] => none
  | k, bal, y :: ys =>
    if y.key ≠ k ∨ bal < y.value.txCost then none
    else if y.value.packed then firstReady (k + 1) (bal - y.value.txCost) ys
    else some (y, bal - y.value.txCost, ys)

/-- Readiness from nonce `k` with balance `bal`: the first transaction that can be packed, with
    the last nonce of the ready run from it. -/
def readiness (k bal : Nat) (ys : List (PoolNode TX)) : Option (TxWithReadyInfo TX × Nat) :=
  (firstReady k bal ys).map fun r => (r.1.value, r.1.key + readyRun (r.1.key + 1) r.2.1 r.2.2)

/-- Without an unpacked transaction nothing is ready. -/
theorem firstReady_of_packed {ys : List (PoolNode TX)} (hys : ∀ y ∈ ys, y.value.packed = true)
    (k bal : Nat) : firstReady k bal ys = none := by
  induction ys generalizing k bal with
  | nil => rfl
  | cons y ys ih =>
    rw [firstReady, if_pos (hys y (by simp))]
    split_ifs
    · rfl
    · exact ih (fun z hz => hys z (by simp [hz])) _ _

/-- **Readiness at the first unpacked transaction.** With the packed transactions `P` before the
    first unpacked one `x`, the nodes are ready exactly when `P ++ [x]` carry the nonces from `k`
    on and the balance pays for all of them. -/
theorem firstReady_split {P Q : List (PoolNode TX)} {x : PoolNode TX}
    (hP : ∀ y ∈ P, y.value.packed = true) (hx : x.value.packed = false) (k bal : Nat) :
    firstReady k bal (P ++ x :: Q) =
      if (P ++ [x]).map (fun y => y.key) = List.range' k (P.length + 1) ∧
          ((P ++ [x]).map fun y => y.value.txCost).sum ≤ bal then
        some (x, bal - ((P ++ [x]).map fun y => y.value.txCost).sum, Q)
      else none := by
  induction P generalizing k bal with
  | nil =>
    simp only [List.nil_append, firstReady, hx, Bool.false_eq_true, if_false, List.map_cons,
      List.map_nil, List.length_nil, Nat.zero_add, List.range'_one, List.cons.injEq, and_true,
      List.sum_cons, List.sum_nil, Nat.add_zero]
    by_cases hh : x.key = k ∧ x.value.txCost ≤ bal
    · rw [if_neg (by omega), if_pos hh]
    · rw [if_pos (by omega), if_neg hh]
  | cons y P ih =>
    have hy : y.value.packed = true := hP y (by simp)
    rw [List.cons_append, firstReady, ih (fun z hz => hP z (by simp [hz]))]
    simp only [hy, if_true, List.cons_append, List.map_cons, List.sum_cons, List.length_cons,
      List.range'_succ, List.cons.injEq, Nat.sub_sub]
    -- the head's nonce and cost are checked first, the rest's after it
    by_cases hh : y.key = k ∧ y.value.txCost ≤ bal
    · rw [if_neg (by omega)]
      refine if_congr ⟨fun ⟨hA, hS⟩ => ⟨⟨hh.1, hA⟩, by omega⟩, fun ⟨⟨_, hA⟩, hS⟩ => ⟨hA, by omega⟩⟩
        rfl rfl
    · rw [if_pos (by omega), if_neg fun h' => hh ⟨h'.1.1, by omega⟩]

/-- What `firstReady` leaves is shorter than what it was given. -/
theorem firstReady_length_lt {k bal : Nat} {ys : List (PoolNode TX)}
    {r : PoolNode TX × Nat × List (PoolNode TX)} (hr : firstReady k bal ys = some r) :
    r.2.2.length < ys.length := by
  induction ys generalizing k bal with
  | nil => cases hr
  | cons y ys ih =>
    rw [firstReady] at hr
    split_ifs at hr
    · exact Nat.lt_succ_of_lt (ih hr)
    · cases hr
      exact Nat.lt_succ_self _

/-- The code's check on the counts: the nodes from `nonce` up to `x`, sorted and at or above
    `nonce`, are one more than `x.key - nonce` exactly when they carry the nonces from `nonce`
    on. -/
theorem keys_eq_range'_iff {P : List (PoolNode TX)} {x : PoolNode TX} {nonce : Nat}
    (hs : (P ++ [x]).Pairwise fun a b => a.key < b.key) (hk : ∀ y ∈ P ++ [x], nonce ≤ y.key) :
    (P ++ [x]).map (fun y => y.key) = List.range' nonce (P.length + 1) ↔
      P.length = x.key - nonce := by
  have hmap : (P ++ [x]).map (fun y => y.key) = P.map (fun y => y.key) ++ [x.key] := by simp
  have hs' : (P.map (fun y => y.key) ++ [x.key]).Pairwise (· < ·) := by
    rw [← hmap, List.pairwise_map]
    exact hs
  have hk' : ∀ u ∈ P.map (fun y => y.key) ++ [x.key], nonce ≤ u := by
    rw [← hmap]
    intro u hu
    obtain ⟨y, hy, rfl⟩ := List.mem_map.mp hu
    exact hk y hy
  have hrange := SortedRun.eq_range'_iff hs' hk'
  rw [List.length_map] at hrange
  rw [hmap, ← hrange]
  have := hk x (by simp)
  omega

end NoncePoolMap

/-! ## The test's reference loop -/

namespace NoncePoolTest

open NoncePoolMap

/-- The loop variables of the test's `recalculate_readiness_with_local_info`. -/
structure ScanState where
  nextNonce : Nat
  balanceLeft : Nat

variable (get : Nat → Option (TxWithReadyInfo TX))

/-- The first loop: pay for each transaction from the sender's nonce on, packed ones included,
    and break at the first unpacked one; a missing nonce or a balance short of a cost returns
    `None` from the function. -/
def firstStep (s : ScanState) : Loop.LoopStep (Option (TX × ScanState)) ScanState :=
  match get s.nextNonce with
  | none => .done none
  | some tx =>
    if s.balanceLeft < tx.txCost then .done none
    else if !tx.packed then
      .done (some (tx.transaction, ⟨s.nextNonce + 1, s.balanceLeft - tx.txCost⟩))
    else .next ⟨s.nextNonce + 1, s.balanceLeft - tx.txCost⟩

/-- The second loop: go on while the next nonce is in the map, unpacked and affordable, and
    return the nonce before the first one that is not. -/
def restStep (s : ScanState) : Loop.LoopStep Nat ScanState :=
  match get s.nextNonce with
  | none => .done (s.nextNonce - 1)
  | some tx =>
    if s.balanceLeft < tx.txCost ∨ tx.packed then .done (s.nextNonce - 1)
    else .next ⟨s.nextNonce + 1, s.balanceLeft - tx.txCost⟩

/-- The test's `recalculate_readiness_with_local_info`, over a `BTreeMap` read through `get`,
    each loop run on `fuel` turns. The outer `none` is the fuel run out. -/
def recalculateReadinessWithLocalInfo (fuel nonce balance : Nat) : Option (Option (TX × Nat)) := do
  match ← Loop.run (firstStep get) fuel ⟨nonce, balance⟩ with
  | none => return none
  | some (firstTx, s) =>
    let endNonce ← Loop.run (restStep get) fuel s
    return some (firstTx, endNonce)

/-- `get` reads the nodes `ys`, sorted by nonce, from nonce `k` on. -/
structure Reads (k : Nat) (ys : List (PoolNode TX)) : Prop where
  sorted : ys.Pairwise fun x y => x.key < y.key
  above : ∀ y ∈ ys, k ≤ y.key
  get_eq : ∀ j, k ≤ j → get j = (ys.find? fun y => decide (y.key = j)).map fun y => y.value

variable {get}

namespace Reads

/-- The map holds nonce `k` when the first node carries it. -/
theorem get_head {k : Nat} {y : PoolNode TX} {ys : List (PoolNode TX)} (h : Reads get k (y :: ys))
    (hy : y.key = k) : get k = some y.value := by
  rw [h.get_eq k (Nat.le_refl k), List.find?_cons_of_pos (by simp [hy])]
  rfl

/-- The map misses nonce `k` when the first node, if any, does not carry it: the others lie
    above the first. -/
theorem get_eq_none {k : Nat} {ys : List (PoolNode TX)} (h : Reads get k ys)
    (hy : ∀ y ∈ ys.head?, y.key ≠ k) : get k = none := by
  rw [h.get_eq k (Nat.le_refl k), Option.map_eq_none_iff, List.find?_eq_none]
  intro z hz
  cases ys with
  | nil => cases hz
  | cons y ys =>
    have hyk : k < y.key := Nat.lt_of_le_of_ne (h.above y (by simp)) (hy y rfl).symm
    rcases List.mem_cons.mp hz with rfl | hz
    · simpa using (hy z rfl)
    · simpa using (Nat.ne_of_gt (hyk.trans ((List.pairwise_cons.mp h.sorted).1 z hz)))

/-- Past the first node, at nonce `k`, the map reads the rest from `k + 1` on. -/
theorem tail {k : Nat} {y : PoolNode TX} {ys : List (PoolNode TX)} (h : Reads get k (y :: ys))
    (hy : y.key = k) : Reads get (k + 1) ys where
  sorted := (List.pairwise_cons.mp h.sorted).2
  above z hz := hy ▸ (List.pairwise_cons.mp h.sorted).1 z hz
  get_eq j hj := by
    rw [h.get_eq j (by omega), List.find?_cons_of_neg (by simp; omega)]

end Reads

/-- **The second loop** runs to the end of the ready run: from `k` it returns the nonce before
    the first one that is missing, packed or not affordable. -/
theorem run_restStep {k : Nat} {ys : List (PoolNode TX)} (h : Reads get k ys) (bal fuel : Nat)
    (hfuel : ys.length < fuel) :
    Loop.run (restStep get) fuel ⟨k, bal⟩ = some (k + readyRun k bal ys - 1) := by
  obtain ⟨fuel, rfl⟩ : ∃ f, fuel = f + 1 := ⟨fuel - 1, by omega⟩
  induction ys generalizing k bal fuel with
  | nil =>
    have hstep : restStep get ⟨k, bal⟩ = .done (k - 1) := by
      simp [restStep, h.get_eq_none (by simp)]
    rw [Loop.run_succ_of_done hstep]
    rfl
  | cons y ys ih =>
    by_cases hy : y.key = k ∧ y.value.packed = false ∧ y.value.txCost ≤ bal
    · -- one more transaction of the run
      obtain ⟨hk, hp, hc⟩ := hy
      have hstep : restStep get ⟨k, bal⟩ = .next ⟨k + 1, bal - y.value.txCost⟩ := by
        simp [restStep, h.get_head hk, hp, Nat.not_lt.mpr hc]
      obtain ⟨fuel, rfl⟩ : ∃ f, fuel = f + 1 := ⟨fuel - 1, by simp at hfuel; omega⟩
      rw [Loop.run_succ_of_next hstep, ih (h.tail hk) _ _ (by simp at hfuel; omega), readyRun,
        if_pos ⟨hk, hp, hc⟩]
      congr 1
      omega
    · -- the run ends before `y`
      have hstep : restStep get ⟨k, bal⟩ = .done (k - 1) := by
        by_cases hk : y.key = k
        · have : ¬ (bal < y.value.txCost ∨ y.value.packed = true) → False := fun hn => hy
            ⟨hk, by simpa using (not_or.mp hn).2, Nat.not_lt.mp (not_or.mp hn).1⟩
          simp only [restStep, h.get_head hk]
          rw [if_pos (by_contra this)]
        · simp [restStep, h.get_eq_none (by simpa using hk)]
      rw [Loop.run_succ_of_done hstep, readyRun, if_neg hy]
      rfl

/-- **The first loop** stops where `firstReady` does: at the first unpacked transaction, with
    the nonce after it and the balance left, or at a missing nonce or a cost the balance lacks. -/
theorem run_firstStep {k : Nat} {ys : List (PoolNode TX)} (h : Reads get k ys) (bal fuel : Nat)
    (hfuel : ys.length < fuel) :
    Loop.run (firstStep get) fuel ⟨k, bal⟩ =
      some ((firstReady k bal ys).map fun r => (r.1.value.transaction, ⟨r.1.key + 1, r.2.1⟩)) := by
  obtain ⟨fuel, rfl⟩ : ∃ f, fuel = f + 1 := ⟨fuel - 1, by omega⟩
  induction ys generalizing k bal fuel with
  | nil =>
    have hstep : firstStep get ⟨k, bal⟩ = .done none := by
      simp [firstStep, h.get_eq_none (by simp)]
    rw [Loop.run_succ_of_done hstep]
    rfl
  | cons y ys ih =>
    by_cases hk : y.key = k
    · by_cases hc : bal < y.value.txCost
      · have hstep : firstStep get ⟨k, bal⟩ = .done none := by
          simp [firstStep, h.get_head hk, hc]
        rw [Loop.run_succ_of_done hstep, firstReady, if_pos (.inr hc)]
        rfl
      · cases hp : y.value.packed with
        | false =>
          -- the first unpacked transaction: the loop breaks with it
          have hstep : firstStep get ⟨k, bal⟩ =
              .done (some (y.value.transaction, ⟨k + 1, bal - y.value.txCost⟩)) := by
            simp [firstStep, h.get_head hk, hc, hp]
          rw [Loop.run_succ_of_done hstep, firstReady, if_neg (by omega), hp]
          simp [hk]
        | true =>
          have hstep : firstStep get ⟨k, bal⟩ = .next ⟨k + 1, bal - y.value.txCost⟩ := by
            simp [firstStep, h.get_head hk, hc, hp]
          obtain ⟨fuel, rfl⟩ : ∃ f, fuel = f + 1 := ⟨fuel - 1, by simp at hfuel; omega⟩
          rw [Loop.run_succ_of_next hstep, ih (h.tail hk) _ _ (by simp at hfuel; omega), firstReady,
            if_neg (by omega), hp]
          rfl
    · have hstep : firstStep get ⟨k, bal⟩ = .done none := by
        simp [firstStep, h.get_eq_none (by simpa using hk)]
      rw [Loop.run_succ_of_done hstep, firstReady, if_pos (.inl hk)]
      rfl

/-- What `firstReady` leaves is read by the map from the nonce after the transaction it
    returns. -/
theorem Reads.firstReady {k bal : Nat} {ys : List (PoolNode TX)} (h : Reads get k ys)
    {r : PoolNode TX × Nat × List (PoolNode TX)} (hr : NoncePoolMap.firstReady k bal ys = some r) :
    Reads get (r.1.key + 1) r.2.2 := by
  induction ys generalizing k bal with
  | nil => cases hr
  | cons y ys ih =>
    rw [NoncePoolMap.firstReady] at hr
    split_ifs at hr with hn hp
    · exact ih (h.tail (by omega)) hr
    · cases hr
      exact (by omega : y.key = k) ▸ h.tail (by omega)

/-- **The test's loops compute readiness.** Reading a map with the nodes `ys` from `nonce`
    on, with more fuel than nodes, the reference loop returns `readiness`. -/
theorem recalculateReadinessWithLocalInfo_eq {nonce : Nat} {ys : List (PoolNode TX)}
    (h : Reads get nonce ys) (balance fuel : Nat) (hfuel : ys.length < fuel) :
    recalculateReadinessWithLocalInfo get fuel nonce balance =
      some ((readiness nonce balance ys).map fun r => (r.1.transaction, r.2)) := by
  unfold recalculateReadinessWithLocalInfo readiness
  rw [run_firstStep h balance fuel hfuel]
  cases hr : NoncePoolMap.firstReady nonce balance ys with
  | none => rfl
  | some r =>
    -- the second loop starts after the first ready transaction, over what is left
    have hlen : r.2.2.length < fuel := (firstReady_length_lt hr).trans hfuel
    simp only [Option.map_some, Option.bind_eq_bind, Option.bind_some, Option.pure_def]
    rw [run_restStep (h.firstReady hr) _ _ hlen]
    simp only [Option.bind_some]
    congr 3
    omega

end NoncePoolTest

namespace NoncePoolMap

/-! ## The code: three weight searches -/

section Code

variable {m : NoncePoolMap TX} (hm : m.Inv)
include hm

/-- `query(nonce)` is the first unpacked transaction among the nodes from `nonce` on. -/
theorem query_eq_dropWhile (nonce : Nat) :
    m.query nonce = ((m.root.toList.dropWhile fun y => decide (y.key < nonce)).find?
      fun y => !y.value.packed).map fun y => y.value := by
  rw [query_eq hm]
  conv_lhs => rw [← List.takeWhile_append_dropWhile (p := fun y : PoolNode TX => decide (y.key < nonce))
    (l := m.root.toList)]
  rw [List.find?_append, List.find?_eq_none.mpr, Option.none_or]
  · -- from `nonce` on, the bound of `query` holds of every node
    congr 1
    refine List.find?_congr fun y hy => ?_
    have := SortedRun.le_of_mem_dropWhile (fun y : PoolNode TX => y.key) hm.nodes_sorted nonce hy
    simp [this]
  · intro y hy
    have := List.mem_takeWhile_imp hy
    simp only [decide_eq_true_eq] at this
    simp only [Bool.and_eq_true, decide_eq_true_eq, not_and, Nat.not_le]
    exact fun _ => this

/-- The weight before `nonce`, as the code reads it, is that of the nodes below `nonce`. -/
theorem weight_before (nonce : Nat) :
    (if nonce = 0 then pure 0 else (Checked.sub nonce 1).map m.weight) =
      some (accumulate (noncePoolConfig TX) 0
        (m.root.toList.takeWhile fun y => decide (y.key < nonce))) := by
  split_ifs with h0
  · -- no node lies below nonce `0`
    subst h0
    cases m.root.toList with
    | nil => rfl
    | cons y ys => simp
  · rw [Checked.sub_of_le (by omega), Option.map_some, weight_eq hm]
    congr 3
    funext y
    simp only [decide_eq_decide]
    omega

/-- `weight_before` under the rest of the code, which reads the weight before `nonce` once. -/
theorem weight_before_bind {β : Type} (nonce : Nat) (f : NoncePoolWeight → Option β) :
    (if nonce = 0 then pure 0 >>= f else (Checked.sub nonce 1).map m.weight >>= f) =
      f (accumulate (noncePoolConfig TX) 0
        (m.root.toList.takeWhile fun y => decide (y.key < nonce))) := by
  rw [← apply_ite (fun o => o >>= f), weight_before hm]
  rfl

/-- The weight up to a node's transaction is that of the nodes up to and including it. -/
theorem weight_at {A R : List (PoolNode TX)} {x : PoolNode TX} (hall : m.root.toList = A ++ x :: R) :
    m.weight (nonce x.value.transaction) =
      accumulate (noncePoolConfig TX) (noncePoolConfig TX).empty (A ++ [x]) := by
  have hx : NodeOk x := hm.nodeOk (by rw [hall]; simp)
  have htake := SortedRun.takeWhile_key_le (fun y : PoolNode TX => y.key) (hall ▸ hm.nodes_sorted)
  rw [← hx.1, weight_eq hm, hall, htake]
  rfl

end Code

end NoncePoolMap

namespace NoncePool

open NoncePoolMap

/-- `get_tx_by_nonce` on a pool that keeps `Inv` finds the node of the nonce. -/
theorem getTxByNonce_eq_find {p : NoncePool TX} (hp : p.map.Inv) (j : Nat) :
    p.getTxByNonce j = (p.map.root.toList.find? fun y => decide (y.key = j)).map fun y => y.value := by
  have hnd := hp.sorted.nodup_keys
  rw [getTxByNonce_eq hp]
  rw [TreapMap.model, NoncePoolMap.model_eq_map] at hnd ⊢
  cases hf : p.map.root.toList.find? fun y => decide (y.key = j) with
  | none =>
    rw [AssocList.lookup_eq_none_iff_not_mem_keys.mpr]
    · rfl
    · -- no node carries `j`
      simp only [List.map_map, List.mem_map, Function.comp_apply]
      rintro ⟨y, hy, hyj⟩
      exact List.find?_eq_none.mp hf y hy (by simpa using hyj)
  | some y =>
    have hyj : y.key = j := by simpa using List.find?_some hf
    rw [AssocList.lookup_of_mem hnd (List.mem_map.mpr ⟨y, List.mem_of_find?_eq_some hf, by rw [hyj]⟩)]
    rfl

/-- A pool that keeps `Inv`, read through `get_tx_by_nonce`, is a map with its nodes from
    `nonce` on. -/
theorem reads_dropWhile {p : NoncePool TX} (hp : p.map.Inv) (nonce : Nat) :
    NoncePoolTest.Reads p.getTxByNonce nonce
      (p.map.root.toList.dropWhile fun y => decide (y.key < nonce)) where
  sorted := hp.nodes_sorted.sublist (List.dropWhile_suffix _).sublist
  above _ hy := SortedRun.le_of_mem_dropWhile (fun y : PoolNode TX => y.key) hp.nodes_sorted nonce hy
  get_eq j hj := by
    rw [getTxByNonce_eq_find hp]
    conv_lhs => rw [← List.takeWhile_append_dropWhile
      (p := fun y : PoolNode TX => decide (y.key < nonce)) (l := p.map.root.toList)]
    rw [List.find?_append, List.find?_eq_none.mpr, Option.none_or]
    -- the nodes below `nonce` carry no nonce from `nonce` on
    intro y hy
    have := List.mem_takeWhile_imp hy
    simp only [decide_eq_true_eq] at this ⊢
    omega

/-- **`recalculate_readiness_with_local_info` computes readiness.** On a pool that keeps `Inv`
    it never panics, and it returns `readiness` over the nodes from `nonce` on, with the ready
    run cut at `2^32 - 1` nonces past the first transaction. -/
theorem recalculateReadinessWithLocalInfo_eq {p : NoncePool TX} (hp : p.map.Inv) (nonce balance : Nat) :
    p.recalculateReadinessWithLocalInfo nonce balance =
      some ((readiness nonce balance (p.map.root.toList.dropWhile fun y => decide (y.key < nonce))).map
        fun r => (r.1, min r.2 (PackingPoolTransaction.nonce r.1.transaction + (2 ^ 32 - 1)))) := by
  unfold recalculateReadinessWithLocalInfo
  rw [query_eq_dropWhile hp]
  cases hq : (p.map.root.toList.dropWhile fun y => decide (y.key < nonce)).find?
      (fun y => !y.value.packed) with
  | none =>
    -- every transaction from `nonce` on is packed
    rw [readiness, firstReady_of_packed (fun y hy => by simpa using List.find?_eq_none.mp hq y hy)]
    rfl
  | some x =>
    obtain ⟨hx, P, Q, hD, hP⟩ := List.find?_eq_some_iff_append.mp hq
    have hall : p.map.root.toList =
        ((p.map.root.toList.takeWhile fun y => decide (y.key < nonce)) ++ P) ++ x :: Q := by
      rw [List.append_assoc, ← hD, List.takeWhile_append_dropWhile]
    dsimp only [Option.map_some]
    rw [weight_before_bind hp, weight_at hp hall]
    set L := p.map.root.toList.takeWhile fun y => decide (y.key < nonce)
    have hok : ∀ y ∈ L ++ P ++ x :: Q, NodeOk y := fun y hy => hp.nodeOk (hall ▸ hy)
    have hs : (L ++ P ++ x :: Q).Pairwise fun a b => a.key < b.key := hall ▸ hp.nodes_sorted
    have hxk : nonce ≤ x.key :=
      SortedRun.le_of_mem_dropWhile (fun y : PoolNode TX => y.key) hp.nodes_sorted nonce (by simp [hD])
    have hxn : PackingPoolTransaction.nonce x.value.transaction = x.key := (hok x (by simp)).1.symm
    -- the two weights count and cost the nodes below `nonce`, and those up to `x`
    have hokL : ∀ y ∈ L, NodeOk y := fun y hy => hok y (by simp [hy])
    have hokx : ∀ y ∈ L ++ P ++ [x], NodeOk y := fun y hy => hok y (by simp at hy ⊢; tauto)
    have hsize : (accumulate (noncePoolConfig TX) (noncePoolConfig TX).empty (L ++ P ++ [x])).size =
        (accumulate (noncePoolConfig TX) 0 L).size + (P.length + 1) := by
      rw [accumulate_size hokx, accumulate_size hokL, noncePoolConfig_empty]
      simp only [List.length_append, List.length_singleton]
      omega
    have hcost : (accumulate (noncePoolConfig TX) (noncePoolConfig TX).empty (L ++ P ++ [x])).cost =
        (accumulate (noncePoolConfig TX) 0 L).cost + ((P ++ [x]).map fun y => y.value.txCost).sum := by
      rw [accumulate_cost hokx, accumulate_cost hokL, noncePoolConfig_empty, List.append_assoc,
        List.map_append, List.sum_append]
      exact (Nat.add_assoc _ _ _).symm
    rw [hsize, hcost, hxn]
    simp (disch := omega) only [Nat.add_sub_cancel_left, Nat.add_sub_cancel, Checked.sub_of_le,
      Option.bind_eq_bind, Option.bind_some]
    rw [readiness, hD, firstReady_split (by simpa using hP) (by simpa using hx)]
    have hsub : (P ++ [x]).Sublist (L ++ P ++ x :: Q) := by
      rw [List.append_assoc]
      exact (((List.nil_sublist Q).cons_cons x).append_left P).trans (List.sublist_append_right L _)
    have hkeys := keys_eq_range'_iff (hs.sublist hsub) fun y hy =>
      SortedRun.le_of_mem_dropWhile (fun y : PoolNode TX => y.key) hp.nodes_sorted nonce
        (by rw [hD]; simp at hy ⊢; tauto)
    by_cases hc : (P ++ [x]).map (fun y => y.key) = List.range' nonce (P.length + 1) ∧
        ((P ++ [x]).map fun y => y.value.txCost).sum ≤ balance
    · -- ready: the code goes on to the run after `x`
      have hlen := hkeys.mp hc.1
      rw [if_neg (by omega), if_pos hc, continousReadyNonce_eq hs hok hp (by rw [hall])]
      simp only [Option.bind_some, Option.map_some, hxn, Nat.add_min_add_left, Option.pure_def]
    · rw [if_pos, if_neg hc]
      · rfl
      · by_contra hn
        exact hc ⟨hkeys.mpr (by omega), by omega⟩

/-- **The code agrees with the test's reference loop.** On every pool reachable by `insert`,
    `mark_packed` and `remove`, for every start nonce and balance, the reference loop of the
    test module, over a map with the pool's transactions and with more fuel than the pool holds
    transactions, returns; and `recalculate_readiness_with_local_info` never panics and returns
    the same first transaction, with the same end nonce unless the ready run after it is
    `2^32` or more nonces long, where the code stops at `2^32 - 1`. -/
theorem recalculateReadinessWithLocalInfo_refines_test {p : NoncePool TX} (hp : p.Reachable)
    (nonce balance fuel : Nat) (hfuel : p.map.model.length < fuel) :
    ∃ r, NoncePoolTest.recalculateReadinessWithLocalInfo p.getTxByNonce fuel nonce balance = some r ∧
      (p.recalculateReadinessWithLocalInfo nonce balance).map
          (Option.map fun x => (x.1.transaction, x.2)) =
        some (r.map fun x => (x.1, min x.2 (PackingPoolTransaction.nonce x.1 + (2 ^ 32 - 1)))) := by
  have hm := hp.inv
  -- the reference loop reads the nodes from `nonce` on, fewer than its fuel
  have hlen : (p.map.root.toList.dropWhile fun y => decide (y.key < nonce)).length < fuel := by
    have := (List.dropWhile_suffix (fun y : PoolNode TX => decide (y.key < nonce))
      (l := p.map.root.toList)).length_le
    rw [TreapMap.model, model_eq_map, List.length_map] at hfuel
    exact Nat.lt_of_le_of_lt this hfuel
  refine ⟨_, NoncePoolTest.recalculateReadinessWithLocalInfo_eq (reads_dropWhile hm nonce) balance
    fuel hlen, ?_⟩
  rw [recalculateReadinessWithLocalInfo_eq hm]
  cases readiness nonce balance (p.map.root.toList.dropWhile fun y => decide (y.key < nonce)) with
  | none => rfl
  | some r => rfl

end NoncePool

/-- The packing pool's mock transaction as a pool transaction, for concrete pools. -/
instance mockPoolTransaction : PoolTransaction MockTransaction Nat Nat where
  toPackingPoolTransaction := inferInstance
  hash tx := tx.id
  value _ := 0
  storageLimit _ := none
  epochHeight _ := none

/-- Sender `1`'s transaction of nonce `k`, of gas price and gas limit `1` and cost `10`. -/
def mockTxInfo (k : Nat) : TxWithReadyInfo MockTransaction := ⟨⟨k, 1, k, 1, 1⟩, false, 0, 0, 10⟩

/-- The pool after inserting sender `1`'s nonces `0`, `1`, `2` and `4` and marking `1` packed:
    four transactions, one of them packed, and a gap at nonce `3`. -/
def gapPool : NoncePool MockTransaction :=
  (((NoncePool.new fun i => i.toUInt64).insertAll
      [mockTxInfo 0, mockTxInfo 1, mockTxInfo 2, mockTxInfo 4]).bind
    fun p => (p.markPacked 1 true).map Prod.snd).getD (NoncePool.new fun i => i.toUInt64)

theorem gapPool_reachable : gapPool.Reachable := by
  have hsome : ((NoncePool.new fun i => i.toUInt64 : NoncePool MockTransaction).insertAll
      [mockTxInfo 0, mockTxInfo 1, mockTxInfo 2, mockTxInfo 4]).isSome := by
    decide +kernel
  obtain ⟨p, hp⟩ := Option.isSome_iff_exists.mp hsome
  have hmark : (((NoncePool.new fun i => i.toUInt64 : NoncePool MockTransaction).insertAll
      [mockTxInfo 0, mockTxInfo 1, mockTxInfo 2, mockTxInfo 4]).bind
        fun p => p.markPacked 1 true).isSome := by
    decide +kernel
  rw [hp, Option.bind_some] at hmark
  obtain ⟨⟨r, q⟩, hq⟩ := Option.isSome_iff_exists.mp hmark
  have hgap : gapPool = q := by
    rw [gapPool, hp, Option.bind_some, hq]
    rfl
  exact hgap ▸ .markPacked 1 true ((NoncePool.Reachable.new _).insertAll _ hp) hq

/-- The nonces of `gapPool` with their packed flags. -/
theorem gapPool_entries :
    gapPool.map.model.map (fun e => (e.1, e.2.2.packed)) =
      [(0, false), (1, true), (2, false), (4, false)] := by
  decide +kernel

theorem recalculateReadinessWithLocalInfo_refines_test_gapPool :
    gapPool.Reachable ∧
      gapPool.map.model.map (fun e => (e.1, e.2.2.packed)) =
        [(0, false), (1, true), (2, false), (4, false)] ∧
      gapPool.map.model.length < 5 ∧
      ∃ r, NoncePoolTest.recalculateReadinessWithLocalInfo gapPool.getTxByNonce 5 1 100 = some r ∧
        (gapPool.recalculateReadinessWithLocalInfo 1 100).map
            (Option.map fun x => (x.1.transaction, x.2)) =
          some (r.map fun x => (x.1, min x.2 (PackingPoolTransaction.nonce x.1 + (2 ^ 32 - 1)))) := by
  have hlen : gapPool.map.model.length < 5 := by
    have h := congrArg List.length gapPool_entries
    rw [List.length_map] at h
    rw [h]
    decide
  exact ⟨gapPool_reachable, gapPool_entries, hlen,
    NoncePool.recalculateReadinessWithLocalInfo_refines_test gapPool_reachable 1 100 5 hlen⟩

end Mazze.TxPool
