import Mathlib
import Mazze.Treap.Count
import Mazze.Treap.IterSpec
import Mazze.TxPool.NoncePoolReadiness

/-!
# The nonce pool's other queries

On a pool that keeps `NoncePoolMap.Inv`, read over its nodes in nonce order:

* `leftmost` and `succ(nonce)` are the first node, and the first from `nonce` on
  (`leftmost_eq`, `succ_eq`): both are `LeftOrStop` walks (`Treap.SearchWalk`);
* `iter_range(nonce)` yields the nodes from `nonce` on (`iterRange_eq`, by `Treap.IterSpec`);
* `remove_lowest_nonce` takes the first entry off the ordered map the pool stands for
  (`NoncePool.removeLowestNonce_eq`);
* `check_pending_reason_with_local_info(nonce, balance, tx)` reads the transactions with nonces
  from `nonce` to `tx`'s: it panics when there are none, and otherwise says `FutureNonce` when
  one of those nonces is missing, and `NotEnoughCash` when their costs pass the balance
  (`NoncePool.checkPendingReasonWithLocalInfo_eq`).
-/

set_option autoImplicit false

namespace Mazze.TxPool

open Mazze.Treap Mazze.Packing PackingPoolTransaction NoncePoolWeight

variable {TX Sender Hash : Type} [PoolTransaction TX Sender Hash]

namespace NoncePoolMap

/-- The nodes of nonce from `lo` to `hi`, in nonce order. -/
def between (m : NoncePoolMap TX) (lo hi : Nat) : List (PoolNode TX) :=
  m.root.toList.filter fun y => decide (lo ≤ y.key ∧ y.key ≤ hi)

/-- The entries of the ordered map with key from `lo` to `hi` are those of the nodes between. -/
theorem model_filter_between (m : NoncePoolMap TX) (lo hi : Nat) :
    m.model.filter (fun e => decide (lo ≤ e.1 ∧ e.1 ≤ hi)) =
      (m.between lo hi).map fun y => (y.key, y.weight, y.value) := by
  rw [TreapMap.model, model_eq_map, List.filter_map]
  rfl

/-- Distinct nonces from `lo` to `hi` are at most `hi + 1 - lo` many. -/
theorem length_between_le {m : NoncePoolMap TX} (hm : m.Inv) (lo hi : Nat) :
    (m.between lo hi).length ≤ hi + 1 - lo := by
  have hs : (m.between lo hi).Pairwise fun u v => u.key < v.key :=
    hm.nodes_sorted.sublist List.filter_sublist
  have hin : ∀ y ∈ m.between lo hi, lo ≤ y.key ∧ y.key ≤ hi := fun y hy => by
    simpa using (List.mem_filter.mp hy).2
  rcases List.eq_nil_or_concat (m.between lo hi) with h | ⟨R, z, h⟩
  · rw [h]
    exact Nat.zero_le _
  · rw [List.concat_eq_append] at h
    rw [h] at hs hin
    -- the keys climb from `lo` at least one at a time, up to the last one at most `hi`
    have hmap : (R ++ [z]).map (fun y => y.key) = R.map (fun y => y.key) ++ [z.key] := by simp
    have hkeys : (R.map (fun y => y.key) ++ [z.key]).Pairwise (· < ·) := by
      rw [← hmap, List.pairwise_map]
      exact hs
    have hge : ∀ u ∈ R.map (fun y => y.key) ++ [z.key], lo ≤ u := by
      rw [← hmap]
      intro u hu
      obtain ⟨y, hy, rfl⟩ := List.mem_map.mp hu
      exact (hin y hy).1
    have hclimb := SortedRun.add_length_le hkeys hge
    have hz := (hin z (by simp)).2
    rw [List.length_map] at hclimb
    rw [h, List.length_append, List.length_singleton]
    omega

/-- `leftmost` is the transaction of the least nonce. -/
theorem leftmost_eq (m : NoncePoolMap TX) : m.leftmost = m.root.toList.head?.map fun y => y.value := by
  have h := searchNoWeight_firstAccepted m (C := noncePoolConfig TX) (f := fun _ => .leftOrStop)
    (a := 0) (Nat.zero_le _) (fun _ _ _ _ h => absurd h (Nat.not_lt_zero _)) fun _ _ _ _ _ => rfl
  rw [List.head?_eq_getElem?, ← h]
  unfold leftmost
  rcases m.searchNoWeight (noncePoolConfig TX) (fun _ => .leftOrStop) with _ | (_ | _ | ⟨b, n⟩ | w) <;>
    rfl

/-- In nonce order, a node lies before the first node from `nonce` on exactly when its nonce is
    below `nonce`. -/
theorem lt_length_takeWhile_iff {m : NoncePoolMap TX} (hm : m.Inv) (nonce : Nat)
    {ys zs : List (PoolNode TX)} {x : PoolNode TX} (hall : m.root.toList = ys ++ x :: zs) :
    ys.length < (m.root.toList.takeWhile fun y => decide (y.key < nonce)).length ↔ x.key < nonce := by
  have hs : (ys ++ x :: zs).Pairwise fun u v => u.key < v.key := hall ▸ hm.nodes_sorted
  have hmono : (ys ++ x :: zs).Pairwise fun u v =>
      decide (v.key < nonce) = true → decide (u.key < nonce) = true :=
    hs.imp fun huv hv => by
      simp only [decide_eq_true_eq] at hv ⊢
      omega
  rw [hall, SortedRun.lt_length_takeWhile_iff hmono, decide_eq_true_eq]

/-- `succ(nonce)` is the transaction of the least nonce from `nonce` on. -/
theorem succ_eq {m : NoncePoolMap TX} (hm : m.Inv) (nonce : Nat) :
    m.succ nonce =
      (m.root.toList.dropWhile fun y => decide (y.key < nonce)).head?.map fun y => y.value := by
  -- the walk turns right before the first node from `nonce` on, and stops at it or left of it
  have h := searchNoWeight_firstAccepted m (C := noncePoolConfig TX)
    (f := fun node => if nonce ≤ node.key then .leftOrStop else .right ())
    (a := (m.root.toList.takeWhile fun y => decide (y.key < nonce)).length)
    (List.takeWhile_prefix _).length_le
    (fun ys x zs hall hlt => by
      rw [if_neg (by have := (lt_length_takeWhile_iff hm nonce hall).mp hlt; omega)])
    (fun ys x zs hall hge => by
      rw [if_pos (by have := (lt_length_takeWhile_iff hm nonce hall).not.mp (by omega); omega)])
  rw [← SortedRun.getElem?_length_takeWhile, ← h]
  unfold succ
  rcases m.searchNoWeight (noncePoolConfig TX)
    (fun node => if nonce ≤ node.key then .leftOrStop else .right ()) with
    _ | (_ | _ | ⟨b, n⟩ | w) <;> rfl

/-- `iter_range(nonce)` yields the transactions from `nonce` on, in order. -/
theorem iterRange_eq {m : NoncePoolMap TX} (hm : m.Inv) (nonce : Nat) :
    m.iterRange nonce = (m.root.toList.filter fun y => decide (nonce ≤ y.key)).map fun y => y.value := by
  rw [iterRange, TreapMap.toList_iterRange compares_sharedKeyConfig m
    (sorted_entries_iff.mpr hm.sorted)]
  rfl

/-! ## What `len()` counts -/

/-- `update` under a map of its result that keeps the map, with closures that keep the
    contract of `insert` and their key, keeps `len()` the number of entries. -/
theorem Inv.update_map_len {α T Err : Type} {m : NoncePoolMap TX} (hm : m.Inv)
    (hc : m.len (noncePoolConfig TX) = m.model.length) {k : Nat}
    {update : Entry Nat Unit (TxWithReadyInfo TX) NoncePoolWeight →
      Entry Nat Unit (TxWithReadyInfo TX) NoncePoolWeight × Except Err (ApplyOpOutcome T)}
    {insert : Stream' UInt64 →
      Except Err (Node Nat Unit (TxWithReadyInfo TX) NoncePoolWeight × T) × Stream' UInt64}
    (g : Except Err T × NoncePoolMap TX → α × NoncePoolMap TX) (hg : ∀ x, (g x).2 = x.2)
    (hins : InsertHonours k insert) (hkeep : KeepsKeys update) {r : α} {m' : NoncePoolMap TX}
    (h : (m.update (noncePoolConfig TX) k update insert).map g = some (r, m')) :
    m'.len (noncePoolConfig TX) = m'.model.length := by
  obtain ⟨⟨r₀, m₀⟩, hu, hgm⟩ := Option.map_eq_some_iff.mp h
  have hm' : m' = m₀ := by
    have h2 := hg (r₀, m₀)
    rw [hgm] at h2
    exact h2
  rw [hm']
  exact TreapMap.update_len hm.sorted hc hins hkeep hu

/-- `insert` keeps `len()` the number of entries: its closure never moves a transaction to
    another nonce. -/
theorem Inv.insert_len {m : NoncePoolMap TX} (hm : m.Inv)
    (hc : m.len (noncePoolConfig TX) = m.model.length) {tx : TxWithReadyInfo TX} {force : Bool}
    {r : InsertResult TX} {m' : NoncePoolMap TX} (h : m.insert tx force = some (r, m')) :
    m'.len (noncePoolConfig TX) = m'.model.length := by
  unfold NoncePoolMap.insert at h
  dsimp only at h
  refine hm.update_map_len hc _ (fun _ => by rfl) (fun rng n out rng' h => ?_) (fun e o ho => ?_) h
  · obtain ⟨⟨rfl, -⟩, -⟩ := Prod.mk.inj h
    rfl
  · split at ho <;> (cases ho; rfl)

/-- `mark_packed` keeps `len()` the number of entries. -/
theorem Inv.markPacked_len {m : NoncePoolMap TX} (hm : m.Inv)
    (hc : m.len (noncePoolConfig TX) = m.model.length) {k : Nat} {packed r : Bool}
    {m' : NoncePoolMap TX} (h : m.markPacked k packed = some (r, m')) :
    m'.len (noncePoolConfig TX) = m'.model.length := by
  unfold NoncePoolMap.markPacked at h
  dsimp only at h
  refine hm.update_map_len hc _ (fun _ => by rfl) (fun rng n out rng' h => ?_) (fun e o ho => ?_) h
  · cases h
  · split at ho
    · cases ho
    · cases ho
      rfl

end NoncePoolMap

namespace NoncePool

open NoncePoolMap

/-- **`check_pending_reason_with_local_info`, read over the nodes.** With `t` the pending
    transaction's nonce: when the pool holds no transaction of nonce from `nonce` to `t` (so
    whenever `t < nonce`), the `u32` count subtraction panics; otherwise the reason is
    `FutureNonce` when one of those nonces is missing, `NotEnoughCash` when their costs pass the
    balance, and there is none when they are all there and affordable. -/
theorem checkPendingReasonWithLocalInfo_eq {p : NoncePool TX} (hp : p.map.Inv) (nonce balance : Nat)
    (pendingTx : TX) (ht : PackingPoolTransaction.nonce pendingTx < 2 ^ 256) :
    p.checkPendingReasonWithLocalInfo nonce balance pendingTx =
      if p.map.between nonce (PackingPoolTransaction.nonce pendingTx) = [] then none
      else if (p.map.between nonce (PackingPoolTransaction.nonce pendingTx)).length ≠
          PackingPoolTransaction.nonce pendingTx + 1 - nonce then some (some .futureNonce)
      else if balance < ((p.map.between nonce (PackingPoolTransaction.nonce pendingTx)).map
          fun y => y.value.txCost).sum then some (some .notEnoughCash)
      else some none := by
  unfold checkPendingReasonWithLocalInfo
  rw [weight_before_bind hp, weight_eq hp]
  dsimp only
  have hok : ∀ y ∈ p.map.root.toList, NodeOk y := fun y hy => hp.nodeOk hy
  have hokL : ∀ y ∈ p.map.root.toList.takeWhile (fun y => decide (y.key < nonce)), NodeOk y :=
    fun y hy => hok y ((List.takeWhile_sublist _).subset hy)
  rcases Nat.lt_or_ge (PackingPoolTransaction.nonce pendingTx) nonce with hlt | hge
  · -- below the local nonce nothing lies between, and the count subtraction panics
    have hR : p.map.between nonce (PackingPoolTransaction.nonce pendingTx) = [] :=
      List.filter_eq_nil_iff.mpr fun y _ => by simp; omega
    have hle : (p.map.root.toList.takeWhile
          fun y => decide (y.key ≤ PackingPoolTransaction.nonce pendingTx)).length ≤
        (p.map.root.toList.takeWhile fun y => decide (y.key < nonce)).length :=
      SortedRun.length_takeWhile_le_of_imp (fun y hy => by simp at hy ⊢; omega) _
    rw [if_pos hR, accumulate_size (fun y hy => hok y ((List.takeWhile_sublist _).subset hy)),
      accumulate_size hokL]
    rcases Nat.lt_or_eq_of_le hle with h | h
    · rw [Checked.sub_of_lt (by omega)]
      rfl
    · rw [h, Checked.sub_of_le (Nat.le_refl _), Nat.sub_self]
      rfl
  · -- the nodes up to `t` are those below `nonce` and then those between
    have hT : p.map.root.toList.takeWhile
          (fun y => decide (y.key ≤ PackingPoolTransaction.nonce pendingTx)) =
        p.map.root.toList.takeWhile (fun y => decide (y.key < nonce)) ++
          p.map.between nonce (PackingPoolTransaction.nonce pendingTx) :=
      SortedRun.takeWhile_le_eq_append (fun y : PoolNode TX => y.key) hp.nodes_sorted (by omega)
    have hokLR : ∀ y ∈ p.map.root.toList.takeWhile (fun y => decide (y.key < nonce)) ++
        p.map.between nonce (PackingPoolTransaction.nonce pendingTx), NodeOk y := fun y hy => by
      rcases List.mem_append.mp hy with hy | hy
      · exact hokL y hy
      · exact hok y (List.mem_of_mem_filter hy)
    rw [hT, accumulate_size hokLR, accumulate_size hokL, accumulate_cost hokLR, accumulate_cost hokL]
    simp (disch := omega) only [List.length_append, List.map_append, List.sum_append,
      Nat.add_sub_add_left, Nat.add_sub_cancel_left, Checked.sub_of_le, Option.bind_eq_bind,
      Option.bind_some]
    by_cases hR0 : p.map.between nonce (PackingPoolTransaction.nonce pendingTx) = []
    · -- nothing between: the count less one panics
      rw [if_pos hR0, hR0, List.length_nil, Checked.sub_of_lt Nat.zero_lt_one]
      rfl
    · have hpos : 0 < (p.map.between nonce (PackingPoolTransaction.nonce pendingTx)).length :=
        List.length_pos_of_ne_nil hR0
      have hbound := length_between_le hp nonce (PackingPoolTransaction.nonce pendingTx)
      rw [if_neg hR0, Checked.sub_of_le hpos, Option.bind_some, Checked.add_of_lt (by omega),
        Option.bind_some]
      -- the expected nonce is the pending one exactly when no nonce between is missing
      by_cases hc : (p.map.between nonce (PackingPoolTransaction.nonce pendingTx)).length ≠
          PackingPoolTransaction.nonce pendingTx + 1 - nonce
      · rw [if_pos hc, if_pos (by omega)]
        rfl
      · rw [if_neg hc, if_neg (by omega)]
        by_cases hb : balance < ((p.map.between nonce (PackingPoolTransaction.nonce pendingTx)).map
            fun y => y.value.txCost).sum
        · rw [if_pos hb, if_pos hb]
          rfl
        · rw [if_neg hb, if_neg hb]
          rfl

/-- `get_lowest_nonce_tx` is the transaction of the first entry. -/
theorem getLowestNonceTx_eq (p : NoncePool TX) :
    p.getLowestNonceTx = p.map.model.head?.map fun e => e.2.2.transaction := by
  rw [getLowestNonceTx, leftmost_eq, TreapMap.model, model_eq_map]
  cases p.map.root.toList <;> rfl

/-- `remove_lowest_nonce` takes the first entry off the pool's ordered map and returns its
    transaction. -/
theorem removeLowestNonce_eq {p : NoncePool TX} (hp : p.map.Inv) :
    p.removeLowestNonce.1 = p.map.model.head?.map (fun e => e.2.2) ∧
      p.removeLowestNonce.2.map.model = p.map.model.tail := by
  unfold removeLowestNonce
  rw [getLowestNonceTx_eq]
  rcases hmodel : p.map.model with _ | ⟨⟨k, w, v⟩, rest⟩
  · exact ⟨rfl, hmodel⟩
  · -- the first entry is stored under its transaction's nonce, which `remove` is given
    have hk : k = nonce v.transaction :=
      (hp.entries (k, w, v) (by rw [hmodel]; exact List.mem_cons_self)).1
    have hs : OrdMap.Sorted ((k, w, v) :: rest) := hmodel ▸ hp.sorted
    obtain ⟨h1, h2⟩ := TreapMap.remove_model hp.sorted (nonce v.transaction)
    rw [hmodel, ← hk] at h1 h2
    refine ⟨?_, ?_⟩
    · change (p.map.remove (noncePoolConfig TX) (nonce v.transaction)).1 = some v
      rw [← hk, h1, AssocList.lookup_cons_self]
      rfl
    · change (p.map.remove (noncePoolConfig TX) (nonce v.transaction)).2.model = rest
      rw [← hk, h2, OrdMap.erase_head hs]

/-- **`len()` counts the pool's transactions over every run**: `new` starts it at zero with no
    entry, and `insert`, `mark_packed` and `remove` move it with the entries. -/
theorem Reachable.len_eq {p : NoncePool TX} (hp : p.Reachable) :
    p.map.len (noncePoolConfig TX) = p.map.model.length := by
  induction hp with
  | new rng => rfl
  | insert tx force hp h ih =>
    obtain ⟨⟨r₀, m₀⟩, hu, hgm⟩ := Option.map_eq_some_iff.mp h
    obtain ⟨-, rfl⟩ := Prod.mk.inj hgm
    exact hp.inv.insert_len ih hu
  | markPacked nonce packed hp h ih =>
    obtain ⟨⟨r₀, m₀⟩, hu, hgm⟩ := Option.map_eq_some_iff.mp h
    obtain ⟨-, rfl⟩ := Prod.mk.inj hgm
    exact hp.inv.markPacked_len ih hu
  | remove nonce hp ih => exact TreapMap.remove_len hp.inv.sorted ih nonce

/-- `is_empty` holds exactly when the pool holds no transaction. -/
theorem Reachable.isEmpty_iff {p : NoncePool TX} (hp : p.Reachable) :
    p.isEmpty = true ↔ p.map.model = [] := by
  rw [isEmpty, beq_iff_eq, hp.len_eq, List.length_eq_zero_iff]

/-- `count_less(nonce)` is the number of transactions of nonce below `nonce`. -/
theorem countLess_eq {p : NoncePool TX} (hp : p.map.Inv) (nonce : Nat) :
    p.countLess nonce = (p.map.model.filter fun e => decide (e.1 < nonce)).length := by
  -- the weight before `nonce` sums the nodes below it, which are a prefix of the nodes
  have hw := weight_before hp nonce
  have hpre : (p.map.root.toList.takeWhile fun y => decide (y.key < nonce)) =
      p.map.root.toList.filter fun y => decide (y.key < nonce) :=
    SortedRun.takeWhile_eq_filter (hp.nodes_sorted.imp fun hxy hy => by simp at hy ⊢; omega)
  have hsize : (accumulate (noncePoolConfig TX) 0
      (p.map.root.toList.takeWhile fun y => decide (y.key < nonce))).size =
        (p.map.root.toList.filter fun y => decide (y.key < nonce)).length := by
    rw [accumulate_size (fun y hy => hp.nodeOk ((List.takeWhile_sublist _).subset hy)), hpre]
    exact Nat.zero_add _
  have hcount : p.countLess nonce = (p.map.root.toList.filter fun y => decide (y.key < nonce)).length := by
    unfold countLess
    split_ifs at hw ⊢ with h0
    · rw [← hsize, ← Option.some.inj hw]
      rfl
    · rw [Checked.sub_of_le (Nat.one_le_iff_ne_zero.mpr h0), Option.map_some] at hw
      rw [Option.some.inj hw, hsize]
  rw [hcount, TreapMap.model, model_eq_map, List.filter_map, List.length_map]
  rfl

/-- `count_from(nonce)` never underflows on a reachable pool: it is the number of transactions
    from `nonce` on. -/
theorem countFrom_eq {p : NoncePool TX} (hp : p.Reachable) (nonce : Nat) :
    p.countFrom nonce = some (p.map.model.filter fun e => decide (nonce ≤ e.1)).length := by
  have hsplit := List.length_eq_length_filter_add (l := p.map.model) fun e => decide (e.1 < nonce)
  have hge : (p.map.model.filter fun e => !decide (e.1 < nonce)) =
      p.map.model.filter fun e => decide (nonce ≤ e.1) :=
    List.filter_congr fun e _ => by simp only [← decide_not, Nat.not_lt]
  rw [countFrom, countLess_eq hp.inv, hp.len_eq, Checked.sub_of_le (List.length_filter_le _ _),
    hsplit, Nat.add_sub_cancel_left, hge]

/-- `succ(nonce)` is the transaction of the first entry from `nonce` on. -/
theorem succ_eq_find {p : NoncePool TX} (hp : p.map.Inv) (nonce : Nat) :
    p.map.succ nonce = (p.map.model.find? fun e => decide (nonce ≤ e.1)).map fun e => e.2.2 := by
  rw [succ_eq hp, SortedRun.head?_dropWhile_lt, TreapMap.model, model_eq_map, List.find?_map,
    Option.map_map]
  rfl

/-- `get_pending_info(nonce)` is the transaction of the first entry from `nonce` on, with the
    number of transactions from `nonce` on; none when there is no such entry. -/
theorem getPendingInfo_eq {p : NoncePool TX} (hp : p.Reachable) (nonce : Nat) :
    p.getPendingInfo nonce =
      some ((p.map.model.find? fun e => decide (nonce ≤ e.1)).map fun e =>
        ((p.map.model.filter fun e => decide (nonce ≤ e.1)).length, e.2.2.transaction)) := by
  unfold getPendingInfo
  rw [succ_eq_find hp.inv]
  cases p.map.model.find? fun e => decide (nonce ≤ e.1) with
  | none => rfl
  | some e =>
    rw [Option.map_some, Option.map_some, countFrom_eq hp]
    rfl

/-- `iter_tx_by_nonce(nonce)` yields the transactions of the entries from `nonce` on, in
    nonce order. -/
theorem iterTxByNonce_eq {p : NoncePool TX} (hp : p.map.Inv) (nonce : Nat) :
    p.iterTxByNonce nonce = (p.map.model.filter fun e => decide (nonce ≤ e.1)).map fun e => e.2.2 := by
  rw [iterTxByNonce, iterRange_eq hp, TreapMap.model, model_eq_map, List.filter_map, List.map_map]
  rfl

/-- `get_pending_transactions(nonce)` are the unpacked transactions from `nonce` on, in nonce
    order. -/
theorem getPendingTransactions_eq {p : NoncePool TX} (hp : p.map.Inv) (nonce : Nat) :
    p.getPendingTransactions nonce =
      ((p.map.model.filter fun e => decide (nonce ≤ e.1)).map fun e => e.2.2).filter
        fun tx => !tx.packed := by
  rw [getPendingTransactions, iterTxByNonce_eq hp]

/-- `remove_lowest_nonce` leaves a reachable pool reachable: it removes a nonce, or nothing. -/
theorem Reachable.removeLowestNonce {p : NoncePool TX} (hp : p.Reachable) :
    p.removeLowestNonce.2.Reachable := by
  unfold NoncePool.removeLowestNonce
  split
  · exact hp
  · exact .remove _ hp

/-! ## Over every run -/

/-- **`check_pending_reason_with_local_info` on every reachable pool**, read on its ordered map.
    With `t` the pending transaction's nonce and the entries of nonce from `nonce` to `t`: none
    of them (so whenever `t < nonce`) is a panic of the `u32` count; otherwise the reason is
    `FutureNonce` when a nonce in between is missing, `NotEnoughCash` when their costs pass the
    balance, and none when they are all there and affordable. -/
theorem checkPendingReasonWithLocalInfo_spec {p : NoncePool TX} (hp : p.Reachable)
    (nonce balance : Nat) (pendingTx : TX) (ht : PackingPoolTransaction.nonce pendingTx < 2 ^ 256) :
    p.checkPendingReasonWithLocalInfo nonce balance pendingTx =
      if (p.map.model.filter fun e =>
          decide (nonce ≤ e.1 ∧ e.1 ≤ PackingPoolTransaction.nonce pendingTx)) = [] then none
      else if (p.map.model.filter fun e =>
          decide (nonce ≤ e.1 ∧ e.1 ≤ PackingPoolTransaction.nonce pendingTx)).length ≠
          PackingPoolTransaction.nonce pendingTx + 1 - nonce then some (some .futureNonce)
      else if balance < ((p.map.model.filter fun e =>
          decide (nonce ≤ e.1 ∧ e.1 ≤ PackingPoolTransaction.nonce pendingTx)).map
            fun e => e.2.2.txCost).sum then some (some .notEnoughCash)
      else some none := by
  simp only [model_filter_between, List.map_eq_nil_iff, List.length_map, List.map_map]
  exact checkPendingReasonWithLocalInfo_eq hp.inv nonce balance pendingTx ht

theorem checkPendingReasonWithLocalInfo_spec_gapPool :
    gapPool.Reachable ∧ gapPool.map.model.map (fun e => (e.1, e.2.2.packed)) =
        [(0, false), (1, true), (2, false), (4, false)] ∧
      PackingPoolTransaction.nonce (mockTxInfo 4).transaction < 2 ^ 256 ∧
      gapPool.checkPendingReasonWithLocalInfo 0 100 (mockTxInfo 4).transaction =
        if (gapPool.map.model.filter fun e =>
            decide (0 ≤ e.1 ∧ e.1 ≤ PackingPoolTransaction.nonce (mockTxInfo 4).transaction)) = []
          then none
        else if (gapPool.map.model.filter fun e =>
            decide (0 ≤ e.1 ∧ e.1 ≤ PackingPoolTransaction.nonce (mockTxInfo 4).transaction)).length ≠
            PackingPoolTransaction.nonce (mockTxInfo 4).transaction + 1 - 0 then
          some (some .futureNonce)
        else if 100 < ((gapPool.map.model.filter fun e =>
            decide (0 ≤ e.1 ∧ e.1 ≤ PackingPoolTransaction.nonce (mockTxInfo 4).transaction)).map
              fun e => e.2.2.txCost).sum then some (some .notEnoughCash)
        else some none :=
  ⟨gapPool_reachable, gapPool_entries, by decide,
    checkPendingReasonWithLocalInfo_spec gapPool_reachable 0 100 (mockTxInfo 4).transaction
      (by decide)⟩

/-- **The iterators on every reachable pool**: `iter_tx_by_nonce(nonce)` yields the
    transactions of nonce `nonce` or more in nonce order, and `get_pending_transactions(nonce)`
    the unpacked ones among them. -/
theorem getPendingTransactions_spec {p : NoncePool TX} (hp : p.Reachable) (nonce : Nat) :
    p.iterTxByNonce nonce = (p.map.model.filter fun e => decide (nonce ≤ e.1)).map (fun e => e.2.2) ∧
      p.getPendingTransactions nonce =
        ((p.map.model.filter fun e => decide (nonce ≤ e.1)).map fun e => e.2.2).filter
          fun tx => !tx.packed :=
  ⟨iterTxByNonce_eq hp.inv nonce, getPendingTransactions_eq hp.inv nonce⟩

theorem getPendingTransactions_spec_gapPool :
    gapPool.Reachable ∧ gapPool.map.model.map (fun e => (e.1, e.2.2.packed)) =
        [(0, false), (1, true), (2, false), (4, false)] ∧
      gapPool.iterTxByNonce 0 =
        (gapPool.map.model.filter fun e => decide (0 ≤ e.1)).map (fun e => e.2.2) ∧
      gapPool.getPendingTransactions 0 =
        ((gapPool.map.model.filter fun e => decide (0 ≤ e.1)).map fun e => e.2.2).filter
          fun tx => !tx.packed :=
  ⟨gapPool_reachable, gapPool_entries, getPendingTransactions_spec gapPool_reachable 0⟩

/-- **`remove_lowest_nonce` on every reachable pool** takes the first entry off the ordered
    map, returning its transaction, which is the one `get_lowest_nonce_tx` reads; the pool it
    leaves is reachable. -/
theorem removeLowestNonce_spec {p : NoncePool TX} (hp : p.Reachable) :
    p.getLowestNonceTx = p.map.model.head?.map (fun e => e.2.2.transaction) ∧
      p.removeLowestNonce.1 = p.map.model.head?.map (fun e => e.2.2) ∧
      p.removeLowestNonce.2.map.model = p.map.model.tail ∧ p.removeLowestNonce.2.Reachable :=
  ⟨getLowestNonceTx_eq p, (removeLowestNonce_eq hp.inv).1, (removeLowestNonce_eq hp.inv).2,
    hp.removeLowestNonce⟩

theorem removeLowestNonce_spec_gapPool :
    gapPool.Reachable ∧ gapPool.map.model.map (fun e => (e.1, e.2.2.packed)) =
        [(0, false), (1, true), (2, false), (4, false)] ∧
      gapPool.getLowestNonceTx = gapPool.map.model.head?.map (fun e => e.2.2.transaction) ∧
      gapPool.removeLowestNonce.1 = gapPool.map.model.head?.map (fun e => e.2.2) ∧
      gapPool.removeLowestNonce.2.map.model = gapPool.map.model.tail ∧
      gapPool.removeLowestNonce.2.Reachable :=
  ⟨gapPool_reachable, gapPool_entries, removeLowestNonce_spec gapPool_reachable⟩

/-- **`len()` counts the pool over every run**: on every pool reachable from `new` by
    `insert`, `mark_packed` and `remove`, the treap's counter is the number of transactions, so
    `is_empty` holds exactly when there is none. -/
theorem len_eq_length_model {p : NoncePool TX} (hp : p.Reachable) :
    p.map.len (noncePoolConfig TX) = p.map.model.length ∧ (p.isEmpty = true ↔ p.map.model = []) :=
  ⟨hp.len_eq, hp.isEmpty_iff⟩

theorem len_eq_length_model_gapPool :
    gapPool.Reachable ∧ gapPool.map.model.map (fun e => (e.1, e.2.2.packed)) =
        [(0, false), (1, true), (2, false), (4, false)] ∧
      gapPool.map.len (noncePoolConfig MockTransaction) = gapPool.map.model.length ∧
      (gapPool.isEmpty = true ↔ gapPool.map.model = []) :=
  ⟨gapPool_reachable, gapPool_entries, len_eq_length_model gapPool_reachable⟩

/-- **The counts on every reachable pool**: `count_less(nonce)` is the number of transactions of
    nonce below `nonce`, `count_from(nonce)` never underflows and is the number from `nonce` on,
    and `get_pending_info(nonce)` is the first transaction from `nonce` on with that number, or
    none when there is no such transaction. -/
theorem getPendingInfo_spec {p : NoncePool TX} (hp : p.Reachable) (nonce : Nat) :
    p.countLess nonce = (p.map.model.filter fun e => decide (e.1 < nonce)).length ∧
      p.countFrom nonce = some (p.map.model.filter fun e => decide (nonce ≤ e.1)).length ∧
      p.getPendingInfo nonce =
        some ((p.map.model.find? fun e => decide (nonce ≤ e.1)).map fun e =>
          ((p.map.model.filter fun e => decide (nonce ≤ e.1)).length, e.2.2.transaction)) :=
  ⟨countLess_eq hp.inv nonce, countFrom_eq hp nonce, getPendingInfo_eq hp nonce⟩

theorem getPendingInfo_spec_gapPool :
    gapPool.Reachable ∧ gapPool.map.model.map (fun e => (e.1, e.2.2.packed)) =
        [(0, false), (1, true), (2, false), (4, false)] ∧
      gapPool.countLess 3 = (gapPool.map.model.filter fun e => decide (e.1 < 3)).length ∧
      gapPool.countFrom 3 = some (gapPool.map.model.filter fun e => decide (3 ≤ e.1)).length ∧
      gapPool.getPendingInfo 3 =
        some ((gapPool.map.model.find? fun e => decide (3 ≤ e.1)).map fun e =>
          ((gapPool.map.model.filter fun e => decide (3 ≤ e.1)).length, e.2.2.transaction)) :=
  ⟨gapPool_reachable, gapPool_entries, getPendingInfo_spec gapPool_reachable 3⟩

end NoncePool

end Mazze.TxPool
