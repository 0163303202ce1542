import Mazze.Packing.BatchSpec

/-!
# Cutting a batch at a nonce

`split_off_by_nonce` turns the nonce into an index (zero below the batch, the length past it,
the distance from the start inside it) and `split_off_inner` cuts there, keeping the prefix or
the suffix and returning the other part; a cut that would keep nothing answers `ShouldDelete`,
and `PackingPool::split_off` then hands the whole batch back and deletes the node. In a chained
batch the index is where the nonces pass the cut, so the two parts are the transactions below
and from the nonce (`splitOffByNonce_parts`), and `ShouldDelete` comes exactly when the kept part
is empty.

The index is found by comparing the nonce with the `U256` sum `start_nonce + len`, which
panics when a batch reaches `U256::MAX` (`splitOffByNonce_eq_none_iff`). `insert` refuses such
nonces into a batch, but not as the first transaction of a new batch, so one call of `insert`
on an empty pool reaches a pool whose `split_off_prefix` and `split_off_suffix` at `U256::MAX`
panic (`splitOff_panics_at_max_nonce`).
-/

set_option autoImplicit false

namespace Mazze.Packing

open Mazze.Treap PackingPoolTransaction

variable {TX Sender : Type} [PackingPoolTransaction TX Sender]

/-! ## Nonces that count up -/

section Nonces

variable {l : List TX} {s : Nat}

/-- The tail of a list whose nonces count up from `s` counts up from `s + 1`. -/
theorem nonces_tail {a : TX} (hl : ∀ j (hj : j < (a :: l).length), nonce (a :: l)[j] = s + j) :
    nonce a = s ∧ ∀ j (hj : j < l.length), nonce l[j] = s + 1 + j := by
  have h₀ := hl 0 (by simp)
  rw [List.getElem_cons_zero] at h₀
  refine ⟨h₀, fun j hj => ?_⟩
  have h := hl (j + 1) (by simp [hj])
  rw [List.getElem_cons_succ] at h
  omega

/-- The first `n - s` transactions are those below `n`. -/
theorem take_sub_eq_filter (hl : ∀ j (hj : j < l.length), nonce l[j] = s + j) (n : Nat) :
    l.take (n - s) = l.filter fun tx => nonce tx < n := by
  induction l generalizing s with
  | nil => simp
  | cons a l ih =>
    obtain ⟨ha, hl'⟩ := nonces_tail hl
    by_cases hn : n ≤ s
    · -- nothing is cut off: `a` and the tail start at `n` or later
      rw [Nat.sub_eq_zero_of_le hn, List.take_zero, List.filter_cons_of_neg (by simp [ha]; omega),
        ← ih hl', Nat.sub_eq_zero_of_le (by omega), List.take_zero]
    · rw [show n - s = n - (s + 1) + 1 by omega, List.take_succ_cons,
        List.filter_cons_of_pos (by simp [ha]; omega), ih hl']

/-- The transactions from index `n - s` on are those from `n`. -/
theorem drop_sub_eq_filter (hl : ∀ j (hj : j < l.length), nonce l[j] = s + j) (n : Nat) :
    l.drop (n - s) = l.filter fun tx => n ≤ nonce tx := by
  induction l generalizing s with
  | nil => simp
  | cons a l ih =>
    obtain ⟨ha, hl'⟩ := nonces_tail hl
    by_cases hn : n ≤ s
    · rw [Nat.sub_eq_zero_of_le hn, List.drop_zero, List.filter_cons_of_pos (by simp [ha]; omega),
        ← ih hl', Nat.sub_eq_zero_of_le (by omega), List.drop_zero]
    · rw [show n - s = n - (s + 1) + 1 by omega, List.drop_succ_cons,
        List.filter_cons_of_neg (by simp [ha]; omega), ih hl']

end Nonces

/-! ## `split_off_inner` and `split_off_by_nonce` -/

/-- What `split_off` makes of a cut: the transactions it returns and those the batch keeps.
    `ShouldDelete` hands the whole batch back (`make_outcome_on_delete`). -/
def splitParts : Except RemoveError (List TX) × PackingBatch TX → List TX × List TX
  | (.error .shouldDelete, b) => (b.txs, [])
  | (.ok out, b) => (out, b.txs)

namespace PackingBatch

theorem splitParts_splitOffInner (b : PackingBatch TX) (k : Nat) (keepPrefix : Bool) :
    splitParts (b.splitOffInner k keepPrefix) =
      if keepPrefix then (b.txs.drop k, b.txs.take k) else (b.txs.take k, b.txs.drop k) := by
  unfold splitOffInner
  by_cases hk : k = 0
  · subst hk
    cases keepPrefix <;> simp [splitParts]
  by_cases hlen : b.txs.length ≤ k
  · -- past the end: all of the batch is the prefix
    rw [if_pos (.inr hlen), List.take_of_length_le hlen, List.drop_of_length_le hlen]
    cases keepPrefix <;> simp [splitParts, hk]
  · rw [if_neg (by omega)]
    cases keepPrefix <;> simp [splitParts, updateTotalLimit]

/-- A cut of a non-empty batch asks for the node to be deleted exactly when it keeps nothing. -/
theorem splitOffInner_shouldDelete_iff {b : PackingBatch TX} (hne : b.txs ≠ []) (k : Nat)
    (keepPrefix : Bool) :
    (b.splitOffInner k keepPrefix).1 = .error .shouldDelete ↔
      (splitParts (b.splitOffInner k keepPrefix)).2 = [] := by
  have hpos : 0 < b.txs.length := List.length_pos_iff.mpr hne
  unfold splitOffInner
  by_cases hk : k = 0
  · subst hk
    cases keepPrefix <;> simp [splitParts, hne]
  by_cases hlen : b.txs.length ≤ k
  · rw [if_pos (.inr hlen)]
    cases keepPrefix <;> simp [splitParts, hk, hne]
  · -- a cut inside the batch leaves both parts non-empty
    rw [if_neg (by omega)]
    cases keepPrefix
    · simp [splitParts, updateTotalLimit]
      omega
    · simp [splitParts, updateTotalLimit, hne, hk]

variable [Inhabited TX]

theorem splitOffByNonce_eq_none_iff (b : PackingBatch TX) (n : Nat) (keepPrefix : Bool) :
    b.splitOffByNonce n keepPrefix = none ↔
      b.startNonce ≤ n ∧ 2 ^ 256 ≤ b.startNonce + b.txs.length := by
  unfold splitOffByNonce Checked.add
  split_ifs with hlt hfit
  · simp only [false_iff, not_and, not_le]
    omega
  · simp only [Option.map_some, reduceCtorEq, false_iff, not_and, not_le]
    omega
  · simp only [Option.map_none, true_iff]
    omega

/-- In a chained batch whose nonces fit a `U256`, the cut at `n` returns the transactions below
    `n` and keeps those from `n` (or the other way round when the prefix is kept), and asks for
    the node to be deleted exactly when it keeps nothing. -/
theorem splitOffByNonce_parts {b : PackingBatch TX} (hb : b.Chained)
    (hfit : b.startNonce + b.txs.length < 2 ^ 256) (n : Nat) (keepPrefix : Bool) :
    ∃ r, b.splitOffByNonce n keepPrefix = some r ∧
      splitParts r = (if keepPrefix then
          (b.txs.filter fun tx => n ≤ nonce tx, b.txs.filter fun tx => nonce tx < n)
        else (b.txs.filter fun tx => nonce tx < n, b.txs.filter fun tx => n ≤ nonce tx)) ∧
      (r.1 = .error .shouldDelete ↔ (splitParts r).2 = []) := by
  -- the index the code computes cuts where `n - start_nonce` does
  have hcut : ∃ k, b.splitOffByNonce n keepPrefix = some (b.splitOffInner k keepPrefix) ∧
      b.txs.take k = b.txs.take (n - b.startNonce) ∧
      b.txs.drop k = b.txs.drop (n - b.startNonce) := by
    unfold splitOffByNonce
    rw [Checked.add_of_lt hfit, Option.map_some]
    split_ifs with hlt hge
    · exact ⟨0, rfl, by rw [Nat.sub_eq_zero_of_le hlt.le], by rw [Nat.sub_eq_zero_of_le hlt.le]⟩
    · refine ⟨b.txs.length, rfl, ?_, ?_⟩
      · rw [List.take_length, List.take_of_length_le (by omega)]
      · rw [List.drop_length, List.drop_of_length_le (by omega)]
    · exact ⟨_, rfl, rfl, rfl⟩
  obtain ⟨k, hk, htake, hdrop⟩ := hcut
  refine ⟨_, hk, ?_, splitOffInner_shouldDelete_iff hb.1 k keepPrefix⟩
  rw [splitParts_splitOffInner, htake, hdrop, take_sub_eq_filter hb.nonce_getElem,
    drop_sub_eq_filter hb.nonce_getElem]

end PackingBatch

/-! ## A batch at `U256::MAX` -/

/-- Sender `7`'s transaction at nonce `U256::MAX`. -/
def maxNonceTx : MockTransaction := ⟨0, 7, U256MAX, 1, 1⟩

theorem splitOff_panics_at_max_nonce :
    ∃ p : PackingPool MockTransaction Nat, PackingPool.Reachable anyRoot smallConfig p ∧
      p.splitOffPrefix anyRoot 7 U256MAX = none ∧ p.splitOffSuffix anyRoot 7 U256MAX = none := by
  have hnew : PackingPool.Reachable anyRoot smallConfig
      (⟨TreapMap.new (packingPoolMap MockTransaction) fun _ => 0, smallConfig⟩ :
        PackingPool MockTransaction Nat) := .new _
  have hsome : ((PackingPool.mk (TreapMap.new (packingPoolMap MockTransaction) fun _ => 0)
      smallConfig).insert anyRoot maxNonceTx).isSome := by
    decide +kernel
  obtain ⟨⟨r, p⟩, hins⟩ := Option.isSome_iff_exists.mp hsome
  -- both cuts at `U256::MAX` reach `start_nonce + len = 2^256`
  have hrun : ((PackingPool.mk (TreapMap.new (packingPoolMap MockTransaction) fun _ => 0)
      smallConfig).insert anyRoot maxNonceTx).map (fun q =>
        ((q.2.splitOffPrefix anyRoot 7 U256MAX).isNone,
          (q.2.splitOffSuffix anyRoot 7 U256MAX).isNone)) = some (true, true) := by
    decide +kernel
  rw [hins, Option.map_some, Option.some.injEq, Prod.mk.injEq] at hrun
  exact ⟨p, .insert maxNonceTx hnew hins, Option.isNone_iff_eq_none.mp hrun.1,
    Option.isNone_iff_eq_none.mp hrun.2⟩

end Mazze.Packing
