import Mathlib
import Mazze.Lib.SortedRun
import Mazze.Treap.SearchWalk
import Mazze.TxPool.NoncePoolInv

/-!
# What the nonce pool's searches find

`nonce_pool_map.rs` answers three questions about a sender's transactions with one weight
search each. On a pool that keeps `NoncePoolMap.Inv`, read over its nodes in nonce order:

* `query(n)` is the first unpacked transaction at or above `n` (`query_eq`), by the prefix
  pattern of `Treap.SearchSpec`: the walk stops where the largest unpacked nonce first
  reaches `n`;
* `weight(n)` is the weight of the transactions up to `n` (`weight_eq`), a walk that keeps
  the last node at or below `n` (`Treap.SearchWalk`);
* `continous_ready_nonce(t, weight(t), rest)` is `t` moved on by the run of transactions
  after `t` that carry the next nonces, are unpacked and together cost at most `rest`, but
  by less than `2^32` (`continousReadyNonce_eq`): the callback reads the run off the counts,
  so the walk keeps the run's last node, and it turns left past `u32::MAX` nonces.

`readyRun` is that run's length, read off the nodes one at a time.
-/

set_option autoImplicit false

namespace Mazze.TxPool

open Mazze.Treap Mazze.Packing PackingPoolTransaction NoncePoolWeight

variable {TX Sender Hash : Type} [PoolTransaction TX Sender Hash]

namespace NoncePoolMap

/-! ## `weight` -/

/-- The callback of `weight`. -/
def weightDir (nonce : Nat) (leftWeight : NoncePoolWeight) (node : PoolNode TX) :
    SearchDirection NoncePoolWeight :=
  if nonce < node.key then .left
  else if nonce = node.key then .stop
  else .rightOrStop (leftWeight + node.weight)

theorem weightDir_right {nonce : Nat} {b w : NoncePoolWeight} {x : PoolNode TX}
    (h : weightDir nonce b x = .right w ∨ weightDir nonce b x = .rightOrStop w) :
    w = (noncePoolConfig TX).consolidate b x.weight := by
  unfold weightDir at h
  split_ifs at h <;> rcases h with h | h <;> cases h
  rfl

theorem weight_eq_search (m : NoncePoolMap TX) (nonce : Nat) :
    m.weight nonce =
      match m.search (noncePoolConfig TX) (weightDir nonce) with
      | some (.found baseWeight node) => baseWeight + node.weight
      | _ => 0 :=
  rfl

/-- `weight`'s walk keeps the last node at or below the nonce. -/
theorem lastAccepted_weightDir {all : List (PoolNode TX)}
    (hs : all.Pairwise fun x y => x.key < y.key) (nonce : Nat) :
    LastAccepted (noncePoolConfig TX) (weightDir nonce) all 0
      (all.takeWhile fun x => decide (x.key ≤ nonce)).length := by
  have hdown : all.Pairwise fun x y =>
      decide (y.key ≤ nonce) = true → decide (x.key ≤ nonce) = true :=
    hs.imp fun hxy hy => by simp at hy ⊢; omega
  refine ⟨Nat.zero_le _, fun _ _ _ _ h => absurd h (Nat.not_lt_zero _), ?_, ?_⟩
  · -- at or below the nonce: stop at the nonce itself, accept below it
    intro ys x zs hall _ hlt
    subst hall
    have hx : x.key ≤ nonce := by
      simpa using (SortedRun.lt_length_takeWhile_iff hdown).mp hlt
    rcases Nat.lt_or_eq_of_le hx with hlt' | heq
    · exact .inl ⟨accumulate (noncePoolConfig TX) (noncePoolConfig TX).empty ys + x.weight,
        by simp [weightDir, Nat.not_lt.mpr hx, Nat.ne_of_gt hlt']⟩
    · refine .inr ⟨?_, by simp [weightDir, heq]⟩
      rw [← heq, SortedRun.takeWhile_key_le (fun y : PoolNode TX => y.key) hs]
      simp
  · -- above the nonce: turn left
    intro ys x zs hall hge
    subst hall
    have hx : ¬ x.key ≤ nonce := fun h =>
      Nat.not_lt.mpr hge ((SortedRun.lt_length_takeWhile_iff hdown).mpr (by simpa using h))
    simp [weightDir, Nat.lt_of_not_le hx]

/-- **`weight`** is the weight of the nodes up to the nonce, in order. -/
theorem weight_eq {m : NoncePoolMap TX} (hm : m.Inv) (nonce : Nat) :
    m.weight nonce = accumulate (noncePoolConfig TX) 0
      (m.root.toList.takeWhile fun x => decide (x.key ≤ nonce)) := by
  have hs := hm.nodes_sorted
  have hsums := hm.sums
  rw [weight_eq_search]
  unfold TreapMap.search
  rcases hroot : m.root with _ | ⟨root, l, r⟩
  · rfl
  rw [hroot] at hs hsums
  dsimp only
  obtain ⟨hfound, hleft⟩ := accumulateWeightSearch_lastAccepted noncePoolConfig_assoc
    noncePoolConfig_comm (fun _ _ _ h => weightDir_right h) root l r hsums
    (lastAccepted_weightDir hs nonce)
  rcases List.eq_nil_or_concat ((BinTree.node root l r).toList.takeWhile
      fun x => decide (x.key ≤ nonce)) with htw | ⟨ys, x, htw⟩
  · -- no node is at or below the nonce: the walk ends at the left
    rw [hleft (by rw [htw]; rfl), htw]
    rfl
  · -- the last node at or below the nonce, with the weight before it
    have hall := (List.takeWhile_append_dropWhile (p := fun x : PoolNode TX => decide (x.key ≤ nonce))
      (l := (BinTree.node root l r).toList)).symm
    rw [htw, List.concat_eq_append, List.append_assoc, List.singleton_append] at hall
    rw [hfound (by rw [htw]; simp) ys x _ hall (by rw [htw]; simp), htw,
      List.concat_eq_append, accumulate_append_singleton]
    rfl

/-! ## `query` -/

/-- The largest unpacked nonce of a weight reaches `nonce`. -/
def reaches (nonce : Nat) (w : NoncePoolWeight) : Bool :=
  (w.maxUnpackdNonce.map fun x => decide (x ≥ nonce)).getD false

/-- `query`'s callback is the prefix pattern of "no unpacked nonce reaches `nonce` yet". -/
theorem query_eq_search (m : NoncePoolMap TX) (nonce : Nat) :
    m.query nonce =
      match m.search (noncePoolConfig TX)
          (prefixSearch (noncePoolConfig TX) fun w => !reaches nonce w) with
      | some (.found _ node) => some node.value
      | _ => none := by
  unfold NoncePoolMap.query
  congr 3
  funext leftWeight node
  unfold prefixSearch reaches
  simp only [noncePoolConfig_consolidate, add_maxUnpackdNonce, any_consolidateMaxNonce]
  cases (leftWeight.maxUnpackdNonce.map fun x => decide (x ≥ nonce)).getD false <;> simp

/-- Over pool nodes, the accumulated weight reaches `nonce` exactly when an unpacked node at or
    above `nonce` is among them. -/
theorem reaches_accumulate {ys : List (PoolNode TX)} (hys : ∀ x ∈ ys, NodeOk x) (nonce : Nat) :
    reaches nonce (accumulate (noncePoolConfig TX) (noncePoolConfig TX).empty ys) =
      ys.any fun x => !x.value.packed && decide (nonce ≤ x.key) := by
  unfold reaches
  rw [accumulate_reaches hys]
  rfl

/-- **`query`** is the first unpacked transaction at or above the nonce. -/
theorem query_eq {m : NoncePoolMap TX} (hm : m.Inv) (nonce : Nat) :
    m.query nonce = (m.root.toList.find? fun x => !x.value.packed && decide (nonce ≤ x.key)).map
      fun x => x.value := by
  have hsums := hm.sums
  have hok : ∀ x ∈ m.root.toList, NodeOk x := fun _ hx => hm.nodeOk hx
  rw [query_eq_search]
  unfold TreapMap.search
  rcases hroot : m.root with _ | ⟨root, l, r⟩
  · rfl
  rw [hroot] at hsums hok
  dsimp only
  -- a prefix reaches the nonce once a longer one does not
  have hstep : ∀ ys m zs, (BinTree.node root l r).toList = ys ++ m :: zs →
      (!reaches nonce (accumulate (noncePoolConfig TX) (noncePoolConfig TX).empty (ys ++ [m]))) = true →
      (!reaches nonce (accumulate (noncePoolConfig TX) (noncePoolConfig TX).empty ys)) = true := by
    intro ys m zs hall h
    have hys : ∀ x ∈ ys ++ [m], NodeOk x := fun x hx =>
      hok x (hall ▸ (show ys ++ [m] <+: ys ++ m :: zs from ⟨zs, by simp⟩).subset hx)
    rw [reaches_accumulate hys] at h
    rw [reaches_accumulate fun x hx => hys x (List.mem_append_left _ hx)]
    simp only [List.any_append, Bool.not_or, Bool.and_eq_true] at h
    exact h.1
  obtain ⟨-, hright, hfound⟩ := accumulateWeightSearch_prefixSearch noncePoolConfig_assoc
    noncePoolConfig_comm (P := fun w => !reaches nonce w) root l r hsums hstep
  cases hf : (BinTree.node root l r).toList.find? fun x => !x.value.packed && decide (nonce ≤ x.key) with
  | none =>
    -- no unpacked node reaches the nonce: the walk ends at the right
    have hall : (!reaches nonce (accumulate (noncePoolConfig TX) (noncePoolConfig TX).empty
        (BinTree.node root l r).toList)) = true := by
      rw [reaches_accumulate hok, Bool.not_eq_true', List.any_eq_false]
      exact fun x hx => List.find?_eq_none.mp hf x hx
    rw [hright hall]
    rfl
  | some x =>
    -- the first one is where the walk stops
    obtain ⟨hx, as, bs, hall, has⟩ := List.find?_eq_some_iff_append.mp hf
    have has' : ∀ y ∈ as ++ [x], NodeOk y := fun y hy =>
      hok y (hall ▸ (show as ++ [x] <+: as ++ x :: bs from ⟨bs, by simp⟩).subset hy)
    rw [hfound as x bs hall (by
      rw [reaches_accumulate fun y hy => has' y (List.mem_append_left _ hy), Bool.not_eq_true',
        List.any_eq_false]
      intro y hy hp
      have := has y hy
      rw [hp] at this
      cases this) (by
      rw [reaches_accumulate has', List.any_append]
      simp [hx])]
    rfl

/-! ## The ready run -/

/-- The ready run from nonce `k`: how many nodes from the start of the list carry the nonces
    `k`, `k + 1`, ..., are unpacked, and together cost at most `bal`. -/
def readyRun : Nat → Nat → List (PoolNode TX) → Nat
  | _, _, [] => 0
  | k, bal, x :: xs =>
    if x.key = k ∧ x.value.packed = false ∧ x.value.txCost ≤ bal then
      readyRun (k + 1) (bal - x.value.txCost) xs + 1
    else 0

theorem readyRun_le_length (k bal : Nat) (R : List (PoolNode TX)) : readyRun k bal R ≤ R.length := by
  induction R generalizing k bal with
  | nil => exact Nat.le_refl 0
  | cons x R ih =>
    simp only [readyRun, List.length_cons]
    split_ifs
    · exact Nat.add_le_add_right (ih _ _) 1
    · exact Nat.zero_le _

/-- **The ready run passes a node** exactly when the nodes up to it are unpacked, carry the
    consecutive nonces from `k`, and cost at most `bal` together. -/
theorem lt_readyRun_iff {R₀ R₁ : List (PoolNode TX)} {x : PoolNode TX} (k bal : Nat) :
    R₀.length < readyRun k bal (R₀ ++ x :: R₁) ↔
      (∀ y ∈ R₀ ++ [x], y.value.packed = false) ∧
      (R₀ ++ [x]).map (fun y => y.key) = List.range' k (R₀.length + 1) ∧
      ((R₀ ++ [x]).map fun y => y.value.txCost).sum ≤ bal := by
  induction R₀ generalizing k bal with
  | nil =>
    simp only [List.nil_append, readyRun, List.length_nil, Nat.zero_add, List.range'_one,
      List.mem_singleton, forall_eq, List.map_cons, List.map_nil, List.cons.injEq, and_true,
      List.sum_cons, List.sum_nil, Nat.add_zero]
    split_ifs with h
    · simp only [Nat.zero_lt_succ, true_iff]
      exact ⟨h.2.1, h.1, h.2.2⟩
    · simp only [Nat.lt_irrefl, false_iff]
      exact fun h' => h ⟨h'.2.1, h'.1, h'.2.2⟩
  | cons y R₀ ih =>
    simp only [List.cons_append, readyRun, List.length_cons]
    conv_rhs => rw [List.range'_succ]
    split_ifs with h
    · rw [Nat.add_lt_add_iff_right, ih]
      simp only [List.mem_cons, List.map_cons, List.cons.injEq, List.sum_cons]
      constructor
      · rintro ⟨hp, hk, hc⟩
        exact ⟨fun z hz => hz.elim (fun h' => h' ▸ h.2.1) (hp z), ⟨h.1, hk⟩, by omega⟩
      · rintro ⟨hp, ⟨-, hk⟩, hc⟩
        exact ⟨fun z hz => hp z (.inr hz), hk, by omega⟩
    · -- the run stops at `y`
      simp only [Nat.not_lt_zero, false_iff]
      rintro ⟨hp, hk, hc⟩
      simp only [List.mem_cons, List.map_cons, List.cons.injEq, List.sum_cons] at hp hk hc
      exact h ⟨hk.1, hp y (.inl rfl), by omega⟩

/-! ## `continous_ready_nonce` -/

/-- The callback of `continous_ready_nonce`. -/
def readyDir (startNonce : Nat) (startWeight : NoncePoolWeight) (restBalance : Nat)
    (leftWeight : NoncePoolWeight) (node : PoolNode TX) :
    Option (SearchDirection NoncePoolWeight) := do
  let weight := leftWeight + node.weight
  if startNonce > node.key then return .right weight
  if startNonce = node.key then return .rightOrStop weight
  let nonceElapsed ← Checked.sub (nonce node.value.transaction) startNonce
  if nonceElapsed > 2 ^ 32 - 1 then return .left
  let itemElapsed ← Checked.sub weight.size startWeight.size
  let unpackedElapsed ← Checked.sub weight.unpackedSize startWeight.unpackedSize
  let costElapsed ← Checked.sub weight.cost startWeight.cost
  -- a packed transaction or a missing nonce in between
  if itemElapsed ≠ unpackedElapsed ∨ nonceElapsed ≠ unpackedElapsed then return .left
  if costElapsed > restBalance then return .left
  return .rightOrStop weight

theorem continousReadyNonce_eq_search (m : NoncePoolMap TX) (startNonce : Nat)
    (startWeight : NoncePoolWeight) (restBalance : Nat) :
    m.continousReadyNonce startNonce startWeight restBalance = (do
      let ret ← m.searchM (noncePoolConfig TX) (readyDir startNonce startWeight restBalance)
      match ret with
      | some (.found _ node) => pure (nonce node.value.transaction)
      | _ => pure startNonce) :=
  rfl

/-- The callback goes right only with the weight through the node. -/
theorem readyDir_weight {t rest : Nat} {sw b w : NoncePoolWeight} {x : PoolNode TX}
    (h : readyDir t sw rest b x = some (.right w) ∨ readyDir t sw rest b x = some (.rightOrStop w)) :
    w = b + x.weight := by
  unfold readyDir at h
  simp only [Option.bind_eq_bind, Option.pure_def, gt_iff_lt] at h
  split_ifs at h
  · rcases h with h | h <;> cases h
    rfl
  · rcases h with h | h <;> cases h
    rfl
  · -- past the start the callback goes right only at its last line
    rcases h with h | h <;>
    · obtain ⟨_, -, h⟩ := Option.bind_eq_some_iff.mp h
      split_ifs at h
      · cases h
      · obtain ⟨_, -, h⟩ := Option.bind_eq_some_iff.mp h
        obtain ⟨_, -, h⟩ := Option.bind_eq_some_iff.mp h
        obtain ⟨_, -, h⟩ := Option.bind_eq_some_iff.mp h
        split_ifs at h <;> cases h
        try rfl

theorem readyDir_before {t rest : Nat} {sw b : NoncePoolWeight} {x : PoolNode TX}
    (h : x.key < t) : readyDir t sw rest b x = some (.right (b + x.weight)) := by
  simp [readyDir, h]

theorem readyDir_start {t rest : Nat} {sw b : NoncePoolWeight} {x : PoolNode TX}
    (h : x.key = t) : readyDir t sw rest b x = some (.rightOrStop (b + x.weight)) := by
  simp [readyDir, h]

/-- **The callback after the start** reads the run off the counts since the start: it accepts a
    node within `u32::MAX` nonces of the start when the nodes since the start are all unpacked,
    as many as the nonces passed, and paid for by the rest; it turns left otherwise. -/
theorem readyDir_after {t rest : Nat} {A R₀ : List (PoolNode TX)} {xt x : PoolNode TX}
    (hok : ∀ y ∈ A ++ xt :: (R₀ ++ [x]), NodeOk y) (hx : t < x.key) :
    readyDir t (accumulate (noncePoolConfig TX) (noncePoolConfig TX).empty (A ++ [xt])) rest
        (accumulate (noncePoolConfig TX) (noncePoolConfig TX).empty (A ++ xt :: R₀)) x =
      some (if x.key - t ≤ 2 ^ 32 - 1 ∧
          R₀.length + 1 = ((R₀ ++ [x]).filter fun y => !y.value.packed).length ∧
          x.key - t = ((R₀ ++ [x]).filter fun y => !y.value.packed).length ∧
          ((R₀ ++ [x]).map fun y => y.value.txCost).sum ≤ rest
        then .rightOrStop
          (accumulate (noncePoolConfig TX) (noncePoolConfig TX).empty (A ++ xt :: R₀) + x.weight)
        else .left) := by
  have hok₁ : ∀ y ∈ A ++ [xt], NodeOk y := fun y hy => hok y (by simp at hy ⊢; tauto)
  have hok₂ : ∀ y ∈ R₀ ++ [x], NodeOk y := fun y hy => hok y (by simp at hy ⊢; tauto)
  have hkey : nonce x.value.transaction = x.key := (hok₂ x (by simp)).1.symm
  -- the weight through `x` is the start's weight and the nodes since
  set sw := accumulate (noncePoolConfig TX) (noncePoolConfig TX).empty (A ++ [xt])
  have hW : accumulate (noncePoolConfig TX) (noncePoolConfig TX).empty (A ++ xt :: R₀) + x.weight =
      accumulate (noncePoolConfig TX) sw (R₀ ++ [x]) := by
    rw [← noncePoolConfig_consolidate, ← accumulate_append_singleton, accumulate_append]
    simp [sw]
  have hsize := accumulate_size hok₂ sw
  have hunp := accumulate_unpackedSize hok₂ sw
  have hcost := accumulate_cost hok₂ sw
  unfold readyDir
  simp only [hW, hsize, hunp, hcost, hkey, gt_iff_lt, Nat.not_lt.mpr hx.le, Nat.ne_of_lt hx,
    if_false, Checked.sub_of_le hx.le, Checked.sub_of_le (Nat.le_add_right _ _),
    Nat.add_sub_cancel_left, Option.bind_eq_bind, Option.bind_some, List.length_append,
    List.length_singleton, Option.pure_def]
  -- the code's three exits to the left, against the one condition
  split_ifs <;> first | rfl | (exfalso; omega)

/-- **The callback's condition is the ready run.** After the start, on nodes of increasing
    nonces above it, the counts the callback compares agree exactly when the ready run from the
    next nonce passes the node and the node is within `u32::MAX` nonces of the start. -/
theorem runReady_iff {t rest : Nat} {R₀ R₁ : List (PoolNode TX)} {x : PoolNode TX}
    (hs : (R₀ ++ x :: R₁).Pairwise fun y z => y.key < z.key) (ht : ∀ y ∈ R₀ ++ [x], t < y.key) :
    (x.key - t ≤ 2 ^ 32 - 1 ∧
        R₀.length + 1 = ((R₀ ++ [x]).filter fun y => !y.value.packed).length ∧
        x.key - t = ((R₀ ++ [x]).filter fun y => !y.value.packed).length ∧
        ((R₀ ++ [x]).map fun y => y.value.txCost).sum ≤ rest) ↔
      R₀.length < min (readyRun (t + 1) rest (R₀ ++ x :: R₁)) (2 ^ 32 - 1) := by
  have hsub : (R₀ ++ [x]).Sublist (R₀ ++ x :: R₁) :=
    (List.Sublist.refl R₀).append (List.singleton_sublist.mpr (by simp))
  have hkeys : ((R₀.map fun y => y.key) ++ [x.key]).Pairwise (· < ·) := by
    have := (hs.sublist hsub)
    rw [← List.pairwise_map (f := fun y : PoolNode TX => y.key)] at this
    simpa using this
  have hge : ∀ k ∈ (R₀.map fun y => y.key) ++ [x.key], t + 1 ≤ k := by
    intro k hk
    simp only [List.mem_append, List.mem_map, List.mem_singleton] at hk
    rcases hk with ⟨y, hy, rfl⟩ | rfl
    · exact ht y (by simp [hy])
    · exact ht x (by simp)
  have hconsec := SortedRun.eq_range'_iff hkeys hge
  rw [List.length_map] at hconsec
  have hfilter := List.length_filter_eq_length_iff (p := fun y : PoolNode TX => !y.value.packed)
    (l := R₀ ++ [x])
  have hle := List.length_filter_le (fun y : PoolNode TX => !y.value.packed) (R₀ ++ [x])
  simp only [List.length_append, List.length_singleton, Bool.not_eq_true'] at hfilter hle
  rw [lt_min_iff, lt_readyRun_iff, List.map_append (f := fun y : PoolNode TX => y.key),
    List.map_singleton, ← hconsec, ← hfilter]
  constructor
  · rintro ⟨hcap, hunp, hnonce, hcost⟩
    exact ⟨⟨hunp.symm, by omega, hcost⟩, by omega⟩
  · rintro ⟨⟨hunp, hnonce, hcost⟩, hcap⟩
    exact ⟨by omega, hunp.symm, by omega, hcost⟩

/-- The callback, read where it does not panic, goes right only with the weight through the
    node. -/
theorem readyDir_getD_weight {t rest : Nat} {sw : NoncePoolWeight} (b : NoncePoolWeight)
    (x : PoolNode TX) (w : NoncePoolWeight)
    (h : (readyDir t sw rest b x).getD .abort = .right w ∨
      (readyDir t sw rest b x).getD .abort = .rightOrStop w) :
    w = (noncePoolConfig TX).consolidate b x.weight := by
  cases hd : readyDir t sw rest b x with
  | none =>
    rw [hd] at h
    rcases h with h | h <;> cases h
  | some d =>
    rw [hd] at h
    exact readyDir_weight (hd ▸ h.imp (congrArg some) (congrArg some))

section Ready

variable {A R : List (PoolNode TX)} {xt : PoolNode TX} {rest : Nat}
  (hs : (A ++ xt :: R).Pairwise fun y z => y.key < z.key) (hok : ∀ y ∈ A ++ xt :: R, NodeOk y)
include hs hok

/-- **The callback at every node**, for a start `xt` in the pool and the weight up to it: right
    before the start, accepting from the start through the ready run after it (within
    `u32::MAX` nonces), left after; it never panics. -/
theorem readyDir_at {ys zs : List (PoolNode TX)} {x : PoolNode TX}
    (hsplit : A ++ xt :: R = ys ++ x :: zs) :
    readyDir xt.key (accumulate (noncePoolConfig TX) (noncePoolConfig TX).empty (A ++ [xt])) rest
        (accumulate (noncePoolConfig TX) (noncePoolConfig TX).empty ys) x =
      some (if ys.length < A.length then
          .right (accumulate (noncePoolConfig TX) (noncePoolConfig TX).empty ys + x.weight)
        else if ys.length < A.length + 1 + min (readyRun (xt.key + 1) rest R) (2 ^ 32 - 1) then
          .rightOrStop (accumulate (noncePoolConfig TX) (noncePoolConfig TX).empty ys + x.weight)
        else .left) := by
  rcases Nat.lt_trichotomy ys.length A.length with hlt | heq | hgt
  · -- before the start
    obtain ⟨A₀, rfl, -⟩ := SortedRun.split_of_lt hsplit hlt
    have hx : x.key < xt.key :=
      (List.pairwise_append.mp hs).2.2 x (by simp) xt List.mem_cons_self
    rw [readyDir_before hx, if_pos hlt]
  · -- the start itself
    obtain ⟨rfl, rfl⟩ := split_unique rfl hsplit heq.symm
    rw [readyDir_start rfl, if_neg (Nat.lt_irrefl _), if_pos (by omega)]
  · -- after the start: the run decides
    obtain ⟨R₀, rfl, rfl⟩ := SortedRun.split_of_lt hsplit.symm hgt
    have hR := (List.pairwise_append.mp hs).2.1
    have hafter : ∀ y ∈ R₀ ++ [x], xt.key < y.key := fun y hy =>
      (List.pairwise_cons.mp hR).1 y (by simp at hy ⊢; tauto)
    rw [readyDir_after (fun y hy => hok y (by simp at hy ⊢; tauto)) (hafter x (by simp)),
      if_neg (show ¬ (A ++ xt :: R₀).length < A.length by simp)]
    congr 1
    refine if_congr ((runReady_iff (List.pairwise_cons.mp hR).2 hafter).trans ?_) rfl rfl
    simp only [List.length_append, List.length_cons]
    omega

/-- `continous_ready_nonce`'s walk, read where it does not panic, keeps the last node of the
    ready run after the start. -/
theorem lastAccepted_readyDir :
    LastAccepted (noncePoolConfig TX)
      (fun b x => (readyDir xt.key (accumulate (noncePoolConfig TX) (noncePoolConfig TX).empty
        (A ++ [xt])) rest b x).getD .abort)
      (A ++ xt :: R) A.length (A.length + 1 + min (readyRun (xt.key + 1) rest R) (2 ^ 32 - 1)) := by
  refine ⟨by omega, fun ys x zs hall hlt => ?_, fun ys x zs hall hge hlt => ?_,
    fun ys x zs hall hge => ?_⟩
  · exact ⟨_, by rw [readyDir_at hs hok hall, if_pos hlt]; rfl⟩
  · exact .inl ⟨_, by rw [readyDir_at hs hok hall, if_neg (by omega), if_pos hlt]; rfl⟩
  · rw [readyDir_at hs hok hall, if_neg (by omega), if_neg (by omega)]
    rfl

omit hok in
/-- **The end of the ready run.** The `j`-th node after the start, for `j` inside the run,
    carries the start's nonce moved on by `j + 1`. -/
theorem readyRun_last {j : Nat} (hj : j < min (readyRun (xt.key + 1) rest R) (2 ^ 32 - 1)) :
    ∃ hj' : j < R.length, R[j].key = xt.key + (j + 1) := by
  have hj' : j < R.length := Nat.lt_of_lt_of_le (Nat.lt_of_lt_of_le hj (Nat.min_le_left _ _))
    (readyRun_le_length _ _ _)
  refine ⟨hj', ?_⟩
  have hR : R = R.take j ++ R[j] :: R.drop (j + 1) := by
    rw [List.getElem_cons_drop, List.take_append_drop]
  have hlen : (R.take j).length = j := List.length_take_of_le hj'.le
  -- everything after the start lies above it
  have hR' := (List.pairwise_append.mp hs).2.1
  have hafter : ∀ y ∈ R.take j ++ [R[j]], xt.key < y.key := by
    intro y hy
    rcases List.mem_append.mp hy with hy | hy
    · exact (List.pairwise_cons.mp hR').1 y (List.mem_of_mem_take hy)
    · rw [List.mem_singleton.mp hy]
      exact (List.pairwise_cons.mp hR').1 _ (List.getElem_mem hj')
  have hlt : (R.take j).length <
      min (readyRun (xt.key + 1) rest (R.take j ++ R[j] :: R.drop (j + 1))) (2 ^ 32 - 1) := by
    rw [← hR, hlen]
    exact hj
  obtain ⟨-, hunp, hnonce, -⟩ := (runReady_iff (hR ▸ (List.pairwise_cons.mp hR').2) hafter).mpr hlt
  have hkey := hafter R[j] (List.mem_append_right _ (List.mem_singleton_self _))
  simp only [hlen] at hunp hnonce
  omega

/-- **`continous_ready_nonce`** from a start in the pool, with the weight up to it, is the start
    moved on by the ready run after it, by less than `2^32`; it never panics. -/
theorem continousReadyNonce_eq {m : NoncePoolMap TX} (hm : m.Inv) (hall : m.root.toList = A ++ xt :: R) :
    m.continousReadyNonce xt.key
        (accumulate (noncePoolConfig TX) (noncePoolConfig TX).empty (A ++ [xt])) rest =
      some (xt.key + min (readyRun (xt.key + 1) rest R) (2 ^ 32 - 1)) := by
  have hsums := hm.sums
  rw [continousReadyNonce_eq_search]
  unfold TreapMap.searchM
  rcases hroot : m.root with _ | ⟨root, l, r⟩
  · rw [hroot] at hall
    simp at hall
  rw [hroot] at hall hsums
  dsimp only
  rw [accumulateWeightSearchM_eq_pure noncePoolConfig_assoc noncePoolConfig_comm
    readyDir_getD_weight root l r hsums fun ys x zs h => by
      rw [readyDir_at hs hok (hall.symm.trans h)]
      rfl]
  obtain ⟨hfound, -⟩ := accumulateWeightSearch_lastAccepted noncePoolConfig_assoc
    noncePoolConfig_comm readyDir_getD_weight root l r hsums (hall ▸ lastAccepted_readyDir hs hok)
  simp only [map_pure, pure_bind]
  -- the node at the end of the run
  rcases Nat.eq_zero_or_pos (min (readyRun (xt.key + 1) rest R) (2 ^ 32 - 1)) with h0 | hpos
  · -- no run: the start itself
    rw [hfound (by omega) A xt R hall (by omega), h0, (hok xt (by simp)).1]
    rfl
  · set j := min (readyRun (xt.key + 1) rest R) (2 ^ 32 - 1) - 1
    have hjlt : j < min (readyRun (xt.key + 1) rest R) (2 ^ 32 - 1) := by omega
    obtain ⟨hj, hkey⟩ := readyRun_last hs hjlt
    have hsplit : (BinTree.node root l r).toList = (A ++ xt :: R.take j) ++ R[j] :: R.drop (j + 1) := by
      rw [hall, List.append_assoc, List.cons_append, List.getElem_cons_drop, List.take_append_drop]
    rw [hfound (by omega) _ R[j] _ hsplit (by simp [List.length_take_of_le hj.le]; omega)]
    dsimp only
    rw [← (hok R[j] (List.mem_append_right _ (List.mem_cons_of_mem _ (List.getElem_mem hj)))).1,
      hkey, Option.pure_def, Option.some.injEq]
    omega

end Ready

end NoncePoolMap

end Mazze.TxPool
