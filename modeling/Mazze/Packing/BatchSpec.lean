import Mathlib
import Mazze.Packing.Invariant

/-!
# `PackingBatch::insert` conserves transactions and keeps the batch's constraints

`insert` takes a transaction of the batch's sender and answers in one of its branches: it
refuses it and leaves the batch, starts a new batch with it, puts it in front, appends it, cuts
the batch before a replacement it refuses, or writes the replacement in and cuts what no longer
fits. `InsertOutcome` says what each branch returns, with the conditions the code tested to get
there; `insert_outcome` proves the code takes one of them. Conservation (`insert_perm`) and the
constraints `assert_constraints` checks (`insert_constrained`) are then one case analysis each.

The constraints rest on `check_acceptable_batch`, which accepts the longest prefix within the
config's count and, past its first transaction, its gas limit (`checkAcceptableBatch_accepts`).

`insert` panics on three `U256` sums (`none` in the model). The append branch adds the new gas
to the total with `+=`, and the saturating test before it lets a sum past `U256::MAX` through
when the config's gas limit is `U256::MAX` itself (`insert_append_overflows`). Whatever
`insert` returns conserves the transactions and keeps the constraints, and it returns whenever
the batch's last nonce and each gas limit next to the config's fit in a `U256`
(`insert_isSome`).
-/

set_option autoImplicit false

namespace Mazze.Packing

open PackingPoolTransaction
open scoped List

variable {TX Sender : Type} [PackingPoolTransaction TX Sender]

/-! ## `check_acceptable_batch` -/

namespace PackingPoolConfig

variable (c : PackingPoolConfig)

/-- What `check_acceptable_batch` returns for `txs`: a prefix of `t` transactions with gas `g`,
    no longer than the count, not empty when it may hold one, and within the gas limit unless it
    is a single transaction. -/
structure Accepts (txs : List TX) (t g : Nat) : Prop where
  le_length : t ≤ txs.length
  le_count : t ≤ c.addressTxCount
  pos : txs ≠ [] → 1 ≤ c.addressTxCount → 1 ≤ t
  gas_eq : g = ((txs.take t).map gasLimit).sum
  gas_le : 2 ≤ t → g ≤ c.addressGasLimit

variable {c}

/-- A replaced index the loop has passed reads as no replacement. -/
theorem checkAcceptableFrom_some_of_lt (r : TX) {i len : Nat} :
    ∀ (txs : List TX) {idx total : Nat}, i < idx →
      c.checkAcceptableFrom (some (r, i)) len idx total txs =
        c.checkAcceptableFrom none len idx total txs
  | [], _, _, _ => rfl
  | tx :: txs, idx, total, h => by
    simp only [checkAcceptableFrom, if_neg (show idx ≠ i by omega),
      checkAcceptableFrom_some_of_lt r txs (show i < idx + 1 by omega)]

/-- A replacement ahead of the loop counts as the list with the replacement written in. -/
theorem checkAcceptableFrom_some (r : TX) {i len : Nat} :
    ∀ (txs : List TX) {idx total : Nat}, idx ≤ i → i < idx + txs.length →
      c.checkAcceptableFrom (some (r, i)) len idx total txs =
        c.checkAcceptableFrom none len idx total (txs.set (i - idx) r)
  | [], _, _, _, h => by simp only [List.length_nil, Nat.add_zero] at h; omega
  | tx :: txs, idx, total, hle, hlt => by
    simp only [List.length_cons] at hlt
    rcases Nat.lt_or_eq_of_le hle with hlt' | rfl
    · rw [show i - idx = (i - (idx + 1)) + 1 by omega, List.set_cons_succ]
      simp only [checkAcceptableFrom, if_neg (show idx ≠ i by omega),
        checkAcceptableFrom_some r txs (show idx + 1 ≤ i by omega) (by omega)]
    · simp only [Nat.sub_self, List.set_cons_zero, checkAcceptableFrom, if_true,
        checkAcceptableFrom_some_of_lt r txs (show idx < idx + 1 by omega)]

/-- `check_acceptable_batch` with a replacement is the check of the list it would give. -/
theorem checkAcceptableBatch_some (txs : List TX) (r : TX) {i : Nat} (hi : i < txs.length) :
    c.checkAcceptableBatch txs (some (r, i)) = c.checkAcceptableBatch (txs.set i r) none := by
  simp only [checkAcceptableBatch, List.length_set]
  rw [checkAcceptableFrom_some r txs (Nat.zero_le i) (by omega), Nat.sub_zero]

/-- The loop from a prefix `pre` already accepted: it accepts at least `pre`, and a prefix of
    the whole list as `Accepts` describes. -/
theorem checkAcceptableFrom_accepts :
    ∀ (txs pre : List TX), pre.length ≤ c.addressTxCount →
      (2 ≤ pre.length → (pre.map gasLimit).sum ≤ c.addressGasLimit) → ∀ {t g : Nat},
      c.checkAcceptableFrom none (pre.length + txs.length) pre.length (pre.map gasLimit).sum txs =
        some (t, g) → pre.length ≤ t ∧ c.Accepts (pre ++ txs) t g
  | [], pre, hcount, hgas, t, g, h => by
    simp only [checkAcceptableFrom, Option.some.injEq, Prod.mk.injEq] at h
    obtain ⟨rfl, rfl⟩ := h
    refine ⟨by simp, ⟨by simp, by simpa using hcount, fun hne _ => ?_, by simp, by simpa using hgas⟩⟩
    exact List.length_pos_of_ne_nil (by simpa using hne)
  | tx :: txs, pre, hcount, hgas, t, g, h => by
    -- stopping with `pre` accepted, which is not empty or is all the count allows
    have hkeep : 1 ≤ pre.length ∨ c.addressTxCount ≤ pre.length →
        pre.length ≤ pre.length ∧ c.Accepts (pre ++ tx :: txs) pre.length (pre.map gasLimit).sum :=
      fun hone => ⟨le_rfl, ⟨by simp, hcount, fun _ _ => by omega, by simp, hgas⟩⟩
    simp only [checkAcceptableFrom, ge_iff_le, gt_iff_lt] at h
    by_cases hc : c.addressTxCount ≤ pre.length
    · rw [if_pos hc, Option.some.injEq, Prod.mk.injEq] at h
      obtain ⟨rfl, rfl⟩ := h
      exact hkeep (.inr hc)
    rw [if_neg hc] at h
    -- the sum did not overflow
    obtain ⟨sum, hadd, h⟩ := Option.bind_eq_some_iff.mp h
    obtain ⟨-, rfl⟩ := Checked.add_eq_some_iff.mp hadd
    by_cases hover : c.addressGasLimit < (pre.map gasLimit).sum + gasLimit tx
    · rw [if_pos hover] at h
      by_cases hzero : pre.length = 0
      · -- the first transaction alone may pass the gas limit
        rw [if_pos hzero, Option.some.injEq, Prod.mk.injEq] at h
        obtain ⟨rfl, rfl⟩ := h
        rw [List.length_eq_zero_iff] at hzero
        subst hzero
        exact ⟨by simp, ⟨by simp, by omega, fun _ _ => le_rfl, by simp, by omega⟩⟩
      · rw [if_neg hzero, Option.some.injEq, Prod.mk.injEq] at h
        obtain ⟨rfl, rfl⟩ := h
        exact hkeep (.inl (Nat.pos_of_ne_zero hzero))
    -- the transaction fits: the loop goes on with it accepted
    rw [if_neg hover] at h
    have hlen : pre.length + (tx :: txs).length = (pre ++ [tx]).length + txs.length := by
      simp only [List.length_append, List.length_cons, List.length_nil]
      omega
    have hsum : (pre.map gasLimit).sum + gasLimit tx = ((pre ++ [tx]).map gasLimit).sum := by
      simp
    rw [hlen, show pre.length + 1 = (pre ++ [tx]).length by simp, hsum] at h
    obtain ⟨hle, hacc⟩ := checkAcceptableFrom_accepts txs (pre ++ [tx])
      (by simp only [List.length_append, List.length_cons, List.length_nil]; omega)
      (fun _ => by rw [← hsum]; omega) h
    simp only [List.append_assoc, List.cons_append, List.nil_append] at hacc
    exact ⟨by simp only [List.length_append, List.length_cons, List.length_nil] at hle; omega,
      hacc⟩

/-- `check_acceptable_batch` without a replacement accepts a prefix as `Accepts` says. -/
theorem checkAcceptableBatch_accepts {txs : List TX} {t g : Nat}
    (h : c.checkAcceptableBatch txs none = some (t, g)) : c.Accepts txs t g := by
  have := checkAcceptableFrom_accepts txs [] (Nat.zero_le _) (by simp) (c := c)
    (by simpa [checkAcceptableBatch] using h)
  simpa using this.2

/-- What `check_acceptable_batch` accepts with a replacement, read on the replaced list. -/
theorem checkAcceptableBatch_replace_accepts {txs : List TX} {r : TX} {i t g : Nat}
    (hi : i < txs.length) (h : c.checkAcceptableBatch txs (some (r, i)) = some (t, g)) :
    c.Accepts (txs.set i r) t g :=
  checkAcceptableBatch_accepts ((checkAcceptableBatch_some txs r hi).symm.trans h)

/-- A transaction's gas fits in a `U256` next to the config's gas limit. -/
def GasFits (c : PackingPoolConfig) (tx : TX) : Prop := c.addressGasLimit + gasLimit tx ≤ U256MAX

/-- The loop's `U256` sum does not overflow while every gas it adds fits next to the gas limit:
    the total it carries stays within the limit, by induction on the list. -/
theorem checkAcceptableFrom_isSome {len : Nat} :
    ∀ (txs : List TX) {idx total : Nat}, total ≤ c.addressGasLimit → (∀ x ∈ txs, c.GasFits x) →
      (c.checkAcceptableFrom none len idx total txs).isSome
  | [], _, _, _, _ => rfl
  | tx :: txs, idx, total, htotal, hfit => by
    have hgas := hfit tx List.mem_cons_self
    unfold GasFits U256MAX at hgas
    simp only [checkAcceptableFrom]
    by_cases hc : idx ≥ c.addressTxCount
    · rw [if_pos hc]
      rfl
    rw [if_neg hc, Checked.add_of_lt (by omega), Option.bind_some]
    by_cases hover : total + gasLimit tx > c.addressGasLimit
    · rw [if_pos hover]
      split_ifs <;> rfl
    · rw [if_neg hover]
      exact checkAcceptableFrom_isSome txs (by omega) fun x hx => hfit x (List.mem_cons_of_mem _ hx)

/-- `check_acceptable_batch` does not overflow when each gas it adds fits next to the limit. -/
theorem checkAcceptableBatch_isSome {txs : List TX} (hfit : ∀ x ∈ txs, c.GasFits x) :
    (c.checkAcceptableBatch txs none).isSome :=
  checkAcceptableFrom_isSome txs (Nat.zero_le _) hfit

end PackingPoolConfig

/-! ## Chains of transactions -/

section Chain

variable {α : Type} {R : α → α → Prop}

/-- Writing `a` at `i` keeps a chain when `a` links to the neighbours of `i`. -/
theorem isChain_set {l : List α} {i : Nat} {a : α} (hl : l.IsChain R)
    (hprev : ∀ x, i ≠ 0 → l[i - 1]? = some x → R x a)
    (hnext : ∀ x, l[i + 1]? = some x → R a x) : (l.set i a).IsChain R := by
  rw [List.isChain_iff_getElem] at hl ⊢
  intro j hj
  simp only [List.length_set] at hj
  simp only [List.getElem_set]
  -- the link into `i`, the link out of it, or a link the set does not touch
  by_cases hji : i = j + 1
  · rw [if_neg (by omega), if_pos hji]
    exact hprev _ (by omega) (by rw [List.getElem?_eq_getElem (by omega)]; congr 2; omega)
  · by_cases hij : i = j
    · subst hij
      rw [if_pos rfl, if_neg (by omega)]
      exact hnext _ (List.getElem?_eq_getElem hj)
    · rw [if_neg hij, if_neg hji]
      exact hl j hj

end Chain

/-- Neighbours in a batch: consecutive nonces, and gas prices that do not decrease. -/
def ChainStep (a c : TX) : Prop := nonce a + 1 = nonce c ∧ gasPrice a ≤ gasPrice c

/-- Along a chain the nonces count up from the first. -/
theorem nonce_getElem_of_isChain {l : List TX} (hl : l.IsChain ChainStep) :
    ∀ (j : Nat) (hj : j < l.length), nonce l[j] = nonce (l.get ⟨0, Nat.zero_lt_of_lt hj⟩) + j
  | 0, _ => rfl
  | j + 1, hj => by
    have hstep := (List.isChain_iff_getElem.mp hl) j hj
    rw [← hstep.1, nonce_getElem_of_isChain hl j (by omega)]
    omega

/-- A shorter prefix weighs no more. -/
theorem gas_take_le (l : List TX) {m n : Nat} (h : m ≤ n) :
    ((l.take m).map gasLimit).sum ≤ ((l.take n).map gasLimit).sum :=
  ((List.take_sublist_take_left h).map gasLimit).sum_le_sum fun _ _ => Nat.zero_le _

namespace PackingBatch

/-- `update_total_limit` sums the gas again. -/
theorem updateTotalLimit_eq (b : PackingBatch TX) :
    b.updateTotalLimit = ⟨b.txs, (b.txs.map gasLimit).sum⟩ := by
  simp only [updateTotalLimit, List.sum_eq_foldl]

variable [Inhabited TX]

/-- A non-empty chain of one sender's transactions is a chained batch, whatever its total. -/
theorem chained_of {l : List TX} {s : Sender} (total : Nat) (hne : l ≠ [])
    (hs : ∀ tx ∈ l, PackingPoolTransaction.sender tx = s) (hl : l.IsChain ChainStep) :
    (⟨l, total⟩ : PackingBatch TX).Chained := by
  refine ⟨hne, fun tx htx => ?_, hl⟩
  obtain ⟨y, ys, rfl⟩ := List.exists_cons_of_ne_nil hne
  simp only [PackingBatch.sender, PackingBatch.first, List.headD_cons]
  rw [hs tx htx, hs y List.mem_cons_self]

/-- The constraints `assert_constraints` checks, with the config's count and gas limit: a
    chained batch whose total is its gas, no longer than the count, and within the gas limit
    unless it is one transaction. -/
structure Constrained (config : PackingPoolConfig) (b : PackingBatch TX) : Prop where
  chained : b.Chained
  total : b.totalGasLimit = (b.txs.map gasLimit).sum
  count : b.txs.length ≤ config.addressTxCount
  gas : 2 ≤ b.txs.length → b.totalGasLimit ≤ config.addressGasLimit

/-! ## The branches of `insert` -/

/-- What `insert` of `tx` into `b` returns, branch by branch, with what the branch tested. -/
inductive InsertOutcome (b : PackingBatch TX) (tx : TX) (config : PackingPoolConfig) :
    (List TX × Except InsertError Unit) × PackingBatch TX → Prop
  /-- A nonce too large or past the end, or an append the limits refuse: nothing changes. -/
  | refused (e : InsertError) : InsertOutcome b tx config (([], .error e), b)
  /-- A gap before the batch, or a pricier predecessor: `tx` alone starts a new batch. -/
  | restart : nonce tx + 1 < b.startNonce ∨
      (nonce tx + 1 = b.startNonce ∧ gasPrice tx > b.firstGasPrice) →
      InsertOutcome b tx config ((b.txs, .ok ()), new tx)
  /-- The predecessor, no pricier: in front, and what the limits refuse cut off. -/
  | prepend {t g : Nat} : nonce tx + 1 = b.startNonce → gasPrice tx ≤ b.firstGasPrice →
      config.checkAcceptableBatch (tx :: b.txs) none = some (t, g) →
      InsertOutcome b tx config (((tx :: b.txs).drop t, .ok ()), ⟨(tx :: b.txs).take t, g⟩)
  /-- The successor, within the count, no cheaper than the last, within the gas limit, and with
      a total that fits in a `U256`. -/
  | append : nonce tx = b.startNonce + b.txs.length → b.txs.length < config.addressTxCount →
      gasPrice (b.txs.getLastD default) ≤ gasPrice tx →
      min (b.totalGasLimit + gasLimit tx) U256MAX ≤ config.addressGasLimit →
      b.totalGasLimit + gasLimit tx ≤ U256MAX →
      InsertOutcome b tx config (([], .ok ()), ⟨b.txs ++ [tx], b.totalGasLimit + gasLimit tx⟩)
  /-- A replacement cheaper than its predecessor: the batch is cut before it. -/
  | cheaper {idx : Nat} : b.startNonce ≤ nonce tx → idx = nonce tx - b.startNonce →
      idx < b.txs.length → 0 < idx → gasPrice tx < gasPrice (b.txs.getD (idx - 1) default) →
      InsertOutcome b tx config ((b.txs.drop idx, .error .decreasingGasPrice),
        updateTotalLimit ⟨b.txs.take idx, b.totalGasLimit⟩)
  /-- A replacement the limits do not take: the batch is cut before it. -/
  | tooHeavy {idx t g : Nat} : b.startNonce ≤ nonce tx → idx = nonce tx - b.startNonce →
      idx < b.txs.length → config.checkAcceptableBatch b.txs (some (tx, idx)) = some (t, g) →
      t ≤ idx →
      InsertOutcome b tx config ((b.txs.drop idx, .error .exceedAddrGasLimit),
        updateTotalLimit ⟨b.txs.take idx, b.totalGasLimit⟩)
  /-- A replacement pricier than its successor: written in, and the rest cut off. -/
  | replaceCut {idx t g : Nat} : b.startNonce ≤ nonce tx → idx = nonce tx - b.startNonce →
      idx < b.txs.length → ¬ (idx > 0 ∧ gasPrice tx < gasPrice (b.txs.getD (idx - 1) default)) →
      config.checkAcceptableBatch b.txs (some (tx, idx)) = some (t, g) → idx < t →
      (∃ next, (b.txs.set idx tx)[idx + 1]? = some next ∧ gasPrice next < gasPrice tx) →
      InsertOutcome b tx config ((b.txs.getD idx default :: (b.txs.set idx tx).drop (idx + 1), .ok ()),
        updateTotalLimit ⟨(b.txs.set idx tx).take (idx + 1), b.totalGasLimit⟩)
  /-- A replacement written in, and what the limits refuse cut off. -/
  | replace {idx t g : Nat} : b.startNonce ≤ nonce tx → idx = nonce tx - b.startNonce →
      idx < b.txs.length → ¬ (idx > 0 ∧ gasPrice tx < gasPrice (b.txs.getD (idx - 1) default)) →
      config.checkAcceptableBatch b.txs (some (tx, idx)) = some (t, g) → idx < t →
      (∀ next, (b.txs.set idx tx)[idx + 1]? = some next → gasPrice tx ≤ gasPrice next) →
      InsertOutcome b tx config ((b.txs.getD idx default :: (b.txs.set idx tx).drop t, .ok ()),
        ⟨(b.txs.set idx tx).take t, g⟩)

/-- What `insert` returns, when it does not panic, is one of the branches `InsertOutcome`
    lists. -/
theorem insert_outcome {b : PackingBatch TX} {tx : TX} {config : PackingPoolConfig}
    {r : (List TX × Except InsertError Unit) × PackingBatch TX} (h : b.insert tx config = some r) :
    InsertOutcome b tx config r := by
  unfold insert at h
  by_cases htoo : nonce tx ≥ U256MAX - 1
  · rw [if_pos htoo, Option.some.injEq] at h
    subst h
    exact .refused _
  rw [if_neg htoo] at h
  by_cases hrestart : nonce tx + 1 < b.startNonce ∨
      (nonce tx + 1 = b.startNonce ∧ gasPrice tx > b.firstGasPrice)
  · simp only [if_pos hrestart, Option.some.injEq] at h
    subst h
    exact .restart hrestart
  simp only [if_neg hrestart] at h
  by_cases hprepend : nonce tx + 1 = b.startNonce ∧ gasPrice tx ≤ b.firstGasPrice
  · rcases hc : config.checkAcceptableBatch (tx :: b.txs) none with _ | ⟨t, g⟩
    · simp only [if_pos hprepend, hc, Option.map_none, reduceCtorEq] at h
    simp only [if_pos hprepend, hc, Option.map_some, Option.some.injEq] at h
    subst h
    exact .prepend hprepend.1 hprepend.2 hc
  simp only [if_neg hprepend] at h
  -- past the front, the code forms `start_nonce + n_txs`, and it did not overflow
  obtain ⟨endNonce, hend, h⟩ := Option.bind_eq_some_iff.mp h
  obtain ⟨-, rfl⟩ := Checked.add_eq_some_iff.mp hend
  by_cases hlarge : nonce tx > b.startNonce + b.txs.length
  · simp only [if_pos hlarge, Option.some.injEq] at h
    subst h
    exact .refused _
  simp only [if_neg hlarge] at h
  by_cases happend : nonce tx = b.startNonce + b.txs.length
  · simp only [if_pos happend] at h
    by_cases hcount : b.txs.length ≥ config.addressTxCount
    · simp only [if_pos hcount, Option.some.injEq] at h
      subst h
      exact .refused _
    simp only [if_neg hcount] at h
    by_cases hprice : gasPrice (b.txs.getLastD default) > gasPrice tx
    · simp only [if_pos hprice, Option.some.injEq] at h
      subst h
      exact .refused _
    simp only [if_neg hprice] at h
    by_cases hgas : config.addressGasLimit < min (b.totalGasLimit + gasLimit tx) U256MAX
    · simp only [if_pos hgas, Option.some.injEq] at h
      subst h
      exact .refused _
    simp only [if_neg hgas] at h
    -- the appended total did not overflow
    obtain ⟨total, htotal, rfl⟩ := Option.map_eq_some_iff.mp h
    obtain ⟨hfit, rfl⟩ := Checked.add_eq_some_iff.mp htotal
    exact .append happend (by omega) (by omega) (by omega) (by unfold U256MAX; omega)
  simp only [if_neg happend] at h
  -- a replacement: the nonce is within the batch
  have hstart : b.startNonce ≤ nonce tx := by omega
  have hidx : nonce tx - b.startNonce < b.txs.length := by omega
  by_cases hcheaper : nonce tx - b.startNonce > 0 ∧
      gasPrice tx < gasPrice (b.txs.getD (nonce tx - b.startNonce - 1) default)
  · simp only [if_pos hcheaper, Option.some.injEq] at h
    subst h
    exact .cheaper hstart rfl hidx hcheaper.1 hcheaper.2
  simp only [if_neg hcheaper] at h
  rcases hc : config.checkAcceptableBatch b.txs (some (tx, nonce tx - b.startNonce)) with
    _ | ⟨t, g⟩
  · simp only [hc, Option.map_none, reduceCtorEq] at h
  simp only [hc, Option.map_some, Option.some.injEq] at h
  by_cases hheavy : t ≤ nonce tx - b.startNonce
  · simp only [if_pos hheavy] at h
    subst h
    exact .tooHeavy hstart rfl hidx hc hheavy
  simp only [if_neg hheavy] at h
  rcases hnext : (b.txs.set (nonce tx - b.startNonce) tx)[nonce tx - b.startNonce + 1]? with
    _ | next
  · simp only [hnext, Option.map_none, Option.getD_none, Bool.false_eq_true, if_false] at h
    subst h
    exact .replace hstart rfl hidx hcheaper hc (by omega) fun _ h => by
      rw [hnext] at h
      cases h
  · by_cases hlt : gasPrice next < gasPrice tx
    · simp only [hnext, Option.map_some, decide_eq_true hlt, Option.getD_some, if_true] at h
      subst h
      exact .replaceCut hstart rfl hidx hcheaper hc (by omega) ⟨next, hnext, hlt⟩
    · simp only [hnext, Option.map_some, decide_eq_false hlt, Option.getD_some,
        Bool.false_eq_true, if_false] at h
      subst h
      exact .replace hstart rfl hidx hcheaper hc (by omega) fun n h => by
        rw [hnext, Option.some.injEq] at h
        subst h
        omega

/-! ## Conservation -/

/-- Taking out the element at `i` and writing `a` there permutes the list with `a` appended. -/
theorem getD_cons_set_perm {α : Type} {l : List α} {i : Nat} (d a : α) (hi : i < l.length) :
    l.getD i d :: l.set i a ~ l ++ [a] := by
  rw [List.getD_eq_getElem?_getD, List.getElem?_eq_getElem hi, Option.getD_some,
    List.set_eq_take_append_cons_drop, if_pos hi]
  calc l[i] :: (l.take i ++ a :: l.drop (i + 1))
      ~ l[i] :: a :: (l.take i ++ l.drop (i + 1)) := .cons _ List.perm_middle
    _ ~ a :: l[i] :: (l.take i ++ l.drop (i + 1)) := .swap _ _ _
    _ ~ a :: (l.take i ++ l[i] :: l.drop (i + 1)) := .cons _ List.perm_middle.symm
    _ = a :: l := by rw [← List.drop_eq_getElem_cons hi, List.take_append_drop]
    _ ~ l ++ [a] := (List.perm_append_singleton a l).symm

/-- `insert` loses no transaction and makes none up: the batch and `tx` are what it returns,
    `tx` again when it reports an error, and the batch it leaves. -/
theorem insert_perm {b : PackingBatch TX} {tx : TX} {config : PackingPoolConfig}
    {r : (List TX × Except InsertError Unit) × PackingBatch TX} (h : b.insert tx config = some r) :
    b.txs ++ [tx] ~ r.1.1 ++ (if r.1.2.isOk then [] else [tx]) ++ r.2.txs := by
  -- the kept part and the cut part are a split of the list the branch built
  cases insert_outcome h with
  | refused e => exact List.perm_append_comm.trans (by simp [Except.toBool])
  | restart => simp [Except.toBool, new]
  | prepend =>
    simp only [Except.isOk, Except.toBool, if_true, List.append_nil]
    calc b.txs ++ [tx] ~ tx :: b.txs := List.perm_append_singleton tx b.txs
      _ = (tx :: b.txs).take _ ++ (tx :: b.txs).drop _ := (List.take_append_drop _ _).symm
      _ ~ (tx :: b.txs).drop _ ++ (tx :: b.txs).take _ := List.perm_append_comm
  | append => simp [Except.toBool]
  | cheaper | tooHeavy =>
    simp only [Except.isOk, Except.toBool, Bool.false_eq_true, if_false, updateTotalLimit_eq]
    calc b.txs ++ [tx] = b.txs.take _ ++ (b.txs.drop _ ++ [tx]) := by
          rw [← List.append_assoc, List.take_append_drop]
      _ ~ b.txs.drop _ ++ [tx] ++ b.txs.take _ := List.perm_append_comm
  | replaceCut _ _ hidx | replace _ _ hidx =>
    simp only [Except.isOk, Except.toBool, if_true, List.append_nil, updateTotalLimit_eq]
    calc b.txs ++ [tx] ~ b.txs.getD _ default :: b.txs.set _ tx :=
          (getD_cons_set_perm _ _ hidx).symm
      _ = b.txs.getD _ default :: ((b.txs.set _ tx).take _ ++ (b.txs.set _ tx).drop _) := by
          rw [List.take_append_drop]
      _ ~ b.txs.getD _ default :: ((b.txs.set _ tx).drop _ ++ (b.txs.set _ tx).take _) :=
          .cons _ List.perm_append_comm

/-! ## The constraints -/

/-- In a chained batch the `j`-th transaction has nonce `start_nonce + j`. -/
theorem Chained.nonce_getElem {b : PackingBatch TX} (hb : b.Chained) (j : Nat)
    (hj : j < b.txs.length) : nonce b.txs[j] = b.startNonce + j := by
  rw [nonce_getElem_of_isChain hb.2.2 j hj]
  rcases b with ⟨_ | ⟨y, ys⟩, total⟩
  · exact absurd rfl hb.1
  · rfl

section Constraints

variable {config : PackingPoolConfig}

/-- The constraints of a batch built from a list. -/
theorem constrained_of_chain {l : List TX} {s : Sender} {total : Nat} (hne : l ≠ [])
    (hs : ∀ tx ∈ l, PackingPoolTransaction.sender tx = s) (hl : l.IsChain ChainStep)
    (htotal : total = (l.map gasLimit).sum) (hcount : l.length ≤ config.addressTxCount)
    (hgas : 2 ≤ l.length → total ≤ config.addressGasLimit) :
    Constrained config ⟨l, total⟩ :=
  ⟨chained_of total hne hs hl, htotal, hcount, hgas⟩

/-- A batch of one transaction, when the count lets one in. -/
theorem constrained_new (tx : TX) (hcount : 1 ≤ config.addressTxCount) :
    Constrained config (new tx) :=
  constrained_of_chain (List.cons_ne_nil tx []) (fun _ h => congrArg _ (List.mem_singleton.mp h))
    (List.isChain_singleton tx) (by simp) hcount (by simp)

/-- A constrained batch lets at least one transaction in. -/
theorem Constrained.one_le_count {b : PackingBatch TX} (hb : b.Constrained config) :
    1 ≤ config.addressTxCount :=
  (List.length_pos_of_ne_nil hb.chained.1).trans_le hb.count

/-- What `check_acceptable_batch` accepts of a chain of one sender is a constrained batch. -/
theorem constrained_accepts {l : List TX} {s : Sender} {t g : Nat} (hne : l ≠ [])
    (hs : ∀ tx ∈ l, PackingPoolTransaction.sender tx = s) (hl : l.IsChain ChainStep)
    (hacc : config.Accepts l t g) (hcount : 1 ≤ config.addressTxCount) :
    Constrained config ⟨l.take t, g⟩ := by
  have ht : 1 ≤ t := hacc.pos hne hcount
  refine constrained_of_chain ?_ (fun tx h => hs tx (List.mem_of_mem_take h)) (hl.take t)
    hacc.gas_eq ?_ ?_
  · simp only [Ne, List.take_eq_nil_iff, not_or]
    exact ⟨by omega, hne⟩
  · rw [List.length_take]
    exact (Nat.min_le_left _ _).trans hacc.le_count
  · rw [List.length_take]
    intro h2
    exact hacc.gas_le (by omega)

/-- A prefix of a constrained batch, its gas summed again. -/
theorem Constrained.take_update {b : PackingBatch TX} (hb : b.Constrained config) {k : Nat}
    (hk : 0 < k) (total : Nat) :
    Constrained config (updateTotalLimit ⟨b.txs.take k, total⟩) := by
  obtain ⟨⟨hne, hs, hl⟩, htotal, hcount, hgas⟩ := hb
  rw [updateTotalLimit_eq]
  refine constrained_of_chain ?_ (fun tx h => hs tx (List.mem_of_mem_take h)) (hl.take k)
    rfl ?_ ?_
  · simp only [Ne, List.take_eq_nil_iff, not_or]
    exact ⟨by omega, hne⟩
  · rw [List.length_take]
    exact (Nat.min_le_right _ _).trans hcount
  · rw [List.length_take]
    intro h2
    -- the prefix weighs no more than the batch, which is within the limit
    calc ((b.txs.take k).map gasLimit).sum ≤ (b.txs.map gasLimit).sum :=
          ((List.take_sublist k b.txs).map gasLimit).sum_le_sum fun _ _ => Nat.zero_le _
      _ = b.totalGasLimit := htotal.symm
      _ ≤ config.addressGasLimit := hgas (by omega)

/-- The prepend branch: `tx` links to the batch's first transaction, and what the check accepts
    of the longer chain is constrained. -/
theorem constrained_prepend {b : PackingBatch TX} {tx : TX} (hb : b.Constrained config)
    (hs : PackingPoolTransaction.sender tx = b.sender) (hn : nonce tx + 1 = b.startNonce)
    (hp : gasPrice tx ≤ b.firstGasPrice) {t g : Nat}
    (hc : config.checkAcceptableBatch (tx :: b.txs) none = (t, g)) :
    Constrained config ⟨(tx :: b.txs).take t, g⟩ := by
  obtain ⟨⟨hne, hsb, hl⟩, -, hcount, -⟩ := hb
  have hchain : (tx :: b.txs).IsChain ChainStep := by
    rcases b with ⟨_ | ⟨y, ys⟩, total⟩
    · exact absurd rfl hne
    · exact List.isChain_cons_cons.mpr ⟨⟨hn, hp⟩, hl⟩
  refine constrained_accepts (List.cons_ne_nil _ _) (s := b.sender) ?_ hchain
    (PackingPoolConfig.checkAcceptableBatch_accepts hc)
    ((List.length_pos_of_ne_nil hne).trans_le hcount)
  intro y hy
  rcases List.mem_cons.mp hy with rfl | hy
  · exact hs
  · exact hsb y hy

/-- The append branch: the last transaction links to `tx`, and the total stays within the
    limit when it fits in a `U256`. -/
theorem constrained_append {b : PackingBatch TX} {tx : TX} (hb : b.Constrained config)
    (hs : PackingPoolTransaction.sender tx = b.sender)
    (hfit : b.totalGasLimit + gasLimit tx ≤ U256MAX)
    (hn : nonce tx = b.startNonce + b.txs.length) (hlen : b.txs.length < config.addressTxCount)
    (hp : gasPrice (b.txs.getLastD default) ≤ gasPrice tx)
    (hgas : min (b.totalGasLimit + gasLimit tx) U256MAX ≤ config.addressGasLimit) :
    Constrained config ⟨b.txs ++ [tx], b.totalGasLimit + gasLimit tx⟩ := by
  obtain ⟨hchained, htotal, -, -⟩ := hb
  have ⟨hne, hsb, hl⟩ := hchained
  have hlast : ∀ x ∈ b.txs.getLast?, ∀ y ∈ [tx].head?, ChainStep x y := by
    intro x hx y hy
    obtain rfl : tx = y := by simpa using hy
    have hpos := List.length_pos_of_ne_nil hne
    rw [List.getLast?_eq_getElem?, List.getElem?_eq_getElem (by omega)] at hx
    obtain rfl := Option.some.inj hx
    refine ⟨?_, ?_⟩
    · rw [hchained.nonce_getElem _ (by omega), hn]
      omega
    · rwa [List.getLastD_eq_getLast?, List.getLast?_eq_getElem?,
        List.getElem?_eq_getElem (by omega), Option.getD_some] at hp
  refine constrained_of_chain (List.append_ne_nil_of_left_ne_nil hne _) (s := b.sender) ?_
    (List.isChain_append.mpr ⟨hl, List.isChain_singleton tx, hlast⟩) ?_ ?_ ?_
  · intro y hy
    rcases List.mem_append.mp hy with hy | hy
    · exact hsb y hy
    · rw [List.mem_singleton.mp hy, hs]
  · simp [htotal]
  · simp only [List.length_append, List.length_singleton]
    omega
  · intro _
    omega

/-- The replacement written at `idx` links to the transaction before it. -/
theorem Constrained.link_prev {b : PackingBatch TX} {tx : TX} (hb : b.Constrained config)
    {idx : Nat} (hidx : idx = nonce tx - b.startNonce) (hstart : b.startNonce ≤ nonce tx)
    (hlt : idx < b.txs.length)
    (hnc : ¬ (idx > 0 ∧ gasPrice tx < gasPrice (b.txs.getD (idx - 1) default))) :
    ∀ x, idx ≠ 0 → b.txs[idx - 1]? = some x → ChainStep x tx := by
  intro x h0 hx
  rw [List.getElem?_eq_getElem (by omega), Option.some.injEq] at hx
  subst hx
  refine ⟨?_, ?_⟩
  · rw [hb.chained.nonce_getElem _ (by omega)]
    omega
  · rw [List.getD_eq_getElem?_getD, List.getElem?_eq_getElem (by omega), Option.getD_some] at hnc
    omega

/-- What the check accepts after a replacement is a constrained batch. -/
theorem constrained_replace {b : PackingBatch TX} {tx : TX} (hb : b.Constrained config)
    (hs : PackingPoolTransaction.sender tx = b.sender) {idx t g : Nat}
    (hidx : idx = nonce tx - b.startNonce) (hstart : b.startNonce ≤ nonce tx)
    (hlt : idx < b.txs.length)
    (hnc : ¬ (idx > 0 ∧ gasPrice tx < gasPrice (b.txs.getD (idx - 1) default)))
    (hc : config.checkAcceptableBatch b.txs (some (tx, idx)) = (t, g))
    (hnext : ∀ next, (b.txs.set idx tx)[idx + 1]? = some next → gasPrice tx ≤ gasPrice next) :
    Constrained config ⟨(b.txs.set idx tx).take t, g⟩ := by
  have hchain : (b.txs.set idx tx).IsChain ChainStep := by
    refine isChain_set hb.chained.2.2 (hb.link_prev hidx hstart hlt hnc) fun x hx => ?_
    have hx' := hx
    rw [← List.getElem?_set_ne (show idx ≠ idx + 1 by omega) (a := tx)] at hx'
    rw [List.getElem?_eq_some_iff] at hx
    obtain ⟨hx1, rfl⟩ := hx
    refine ⟨?_, hnext _ hx'⟩
    rw [hb.chained.nonce_getElem _ hx1]
    omega
  refine constrained_accepts (s := b.sender) ?_ ?_ hchain
    (PackingPoolConfig.checkAcceptableBatch_replace_accepts hlt hc) hb.one_le_count
  · rw [Ne, ← List.length_eq_zero_iff, List.length_set]
    omega
  · intro y hy
    rcases List.mem_or_eq_of_mem_set hy with hy | rfl
    · exact hb.chained.2.1 y hy
    · exact hs

/-- A replacement pricier than its successor: the batch up to it, its gas summed again. -/
theorem constrained_replace_cut {b : PackingBatch TX} {tx : TX} (hb : b.Constrained config)
    (hs : PackingPoolTransaction.sender tx = b.sender) {idx t g : Nat}
    (hidx : idx = nonce tx - b.startNonce) (hstart : b.startNonce ≤ nonce tx)
    (hlt : idx < b.txs.length)
    (hnc : ¬ (idx > 0 ∧ gasPrice tx < gasPrice (b.txs.getD (idx - 1) default)))
    (hc : config.checkAcceptableBatch b.txs (some (tx, idx)) = (t, g)) (ht : idx < t) :
    Constrained config (updateTotalLimit ⟨(b.txs.set idx tx).take (idx + 1), b.totalGasLimit⟩) := by
  have hacc := PackingPoolConfig.checkAcceptableBatch_replace_accepts hlt hc
  -- the cut list is the prefix up to `idx` with `tx` written last: it has no successor to link
  have hchain : ((b.txs.set idx tx).take (idx + 1)).IsChain ChainStep := by
    rw [List.take_set]
    refine isChain_set (hb.chained.2.2.take _) (fun x h0 hx => ?_) fun x hx => ?_
    · rw [List.getElem?_take_of_lt (by omega)] at hx
      exact hb.link_prev hidx hstart hlt hnc x h0 hx
    · rw [List.getElem?_take, if_neg (by omega)] at hx
      cases hx
  rw [updateTotalLimit_eq]
  refine constrained_of_chain (s := b.sender) ?_ ?_ hchain rfl ?_ ?_
  · rw [Ne, ← List.length_eq_zero_iff, List.length_take, List.length_set]
    omega
  · intro y hy
    rcases List.mem_or_eq_of_mem_set (List.mem_of_mem_take hy) with hy | rfl
    · exact hb.chained.2.1 y hy
    · exact hs
  · rw [List.length_take, List.length_set]
    have := hacc.le_count
    omega
  · rw [List.length_take, List.length_set]
    intro h2
    calc (((b.txs.set idx tx).take (idx + 1)).map gasLimit).sum
        ≤ (((b.txs.set idx tx).take t).map gasLimit).sum := gas_take_le _ ht
      _ = g := hacc.gas_eq.symm
      _ ≤ config.addressGasLimit := hacc.gas_le (by omega)

/-- `insert` of a transaction of the batch's sender keeps the constraints, when it does not
    panic. -/
theorem insert_constrained {b : PackingBatch TX} {tx : TX} (hb : b.Constrained config)
    (hs : PackingPoolTransaction.sender tx = b.sender)
    {r : (List TX × Except InsertError Unit) × PackingBatch TX} (h : b.insert tx config = some r) :
    r.2.Constrained config := by
  cases insert_outcome h with
  | refused => exact hb
  | restart => exact constrained_new tx hb.one_le_count
  | prepend hn hp hc => exact constrained_prepend hb hs hn hp hc
  | append hn hlen hp hgas hfit => exact constrained_append hb hs hfit hn hlen hp hgas
  | cheaper _ _ _ hpos => exact hb.take_update hpos _
  | @tooHeavy idx _ _ _ _ hlt hc ht =>
    -- the check lets the first transaction in alone, so the cut keeps one
    have hacc := PackingPoolConfig.checkAcceptableBatch_replace_accepts hlt hc
    have hne : b.txs.set idx tx ≠ [] := by
      rw [Ne, ← List.length_eq_zero_iff, List.length_set]
      omega
    exact hb.take_update (Nat.le_trans (hacc.pos hne hb.one_le_count) ht) _
  | replaceCut hstart hidx hlt hnc hc ht =>
    exact constrained_replace_cut hb hs hidx hstart hlt hnc hc ht
  | replace hstart hidx hlt hnc hc _ hnext =>
    exact constrained_replace hb hs hidx hstart hlt hnc hc hnext

/-- The total of a constrained batch whose gas fits next to the limit is a `U256`. -/
theorem Constrained.total_fits {b : PackingBatch TX} (hb : b.Constrained config)
    (hfit : ∀ x ∈ b.txs, config.GasFits x) : b.totalGasLimit ≤ U256MAX := by
  obtain ⟨y, ys, hys⟩ := List.exists_cons_of_ne_nil hb.chained.1
  have hy := hfit y (hys ▸ List.mem_cons_self)
  unfold PackingPoolConfig.GasFits at hy
  rcases ys with _ | ⟨z, zs⟩
  · -- one transaction: the total is its gas
    rw [hb.total, hys]
    simp only [List.map_cons, List.map_nil, List.sum_cons, List.sum_nil]
    omega
  · -- more: the total is within the limit
    have := hb.gas (by rw [hys]; simp)
    omega

/-- `insert` does not panic when the batch's last nonce and each gas next to the config's limit
    fit in a `U256`. -/
theorem insert_isSome {b : PackingBatch TX} {tx : TX} (hb : b.Constrained config)
    (hnonce : b.startNonce + b.txs.length ≤ U256MAX) (hfit : ∀ x ∈ tx :: b.txs, config.GasFits x) :
    (b.insert tx config).isSome := by
  have hfitTx : config.GasFits tx := hfit tx List.mem_cons_self
  have hfitB : ∀ x ∈ b.txs, config.GasFits x := fun x hx => hfit x (List.mem_cons_of_mem _ hx)
  have htotal := hb.total_fits hfitB
  unfold insert
  by_cases htoo : nonce tx ≥ U256MAX - 1
  · rw [if_pos htoo]
    rfl
  rw [if_neg htoo]
  by_cases hrestart : nonce tx + 1 < b.startNonce ∨
      (nonce tx + 1 = b.startNonce ∧ gasPrice tx > b.firstGasPrice)
  · simp only [if_pos hrestart]
    rfl
  simp only [if_neg hrestart]
  by_cases hprepend : nonce tx + 1 = b.startNonce ∧ gasPrice tx ≤ b.firstGasPrice
  · simp only [if_pos hprepend, Option.isSome_map]
    exact PackingPoolConfig.checkAcceptableBatch_isSome hfit
  simp only [if_neg hprepend]
  unfold U256MAX at hnonce
  rw [Checked.add_of_lt (by omega), Option.bind_some]
  by_cases hlarge : nonce tx > b.startNonce + b.txs.length
  · rw [if_pos hlarge]
    rfl
  rw [if_neg hlarge]
  by_cases happend : nonce tx = b.startNonce + b.txs.length
  · -- the append: the saturating test let the sum through, so it is below `2^256`
    simp only [if_pos happend]
    split_ifs with hcount hprice hgas
    · rfl
    · rfl
    · rfl
    · unfold PackingPoolConfig.GasFits U256MAX at hfitTx
      unfold U256MAX at htotal hgas
      rw [Option.isSome_map, Checked.add_of_lt (by omega)]
      rfl
  -- a replacement: checked on the list with `tx` written in
  simp only [if_neg happend]
  by_cases hcheaper : nonce tx - b.startNonce > 0 ∧
      gasPrice tx < gasPrice (b.txs.getD (nonce tx - b.startNonce - 1) default)
  · rw [if_pos hcheaper]
    rfl
  · rw [if_neg hcheaper, Option.isSome_map, PackingPoolConfig.checkAcceptableBatch_some _ _ (by omega)]
    refine PackingPoolConfig.checkAcceptableBatch_isSome fun x hx => ?_
    rcases List.mem_or_eq_of_mem_set hx with hx | rfl
    · exact hfitB x hx
    · exact hfitTx

end Constraints

/-! ## Conservation and constraints together -/

/-- `insert` of a transaction of the batch's sender into a constrained batch conserves the
    transactions, the batch and `tx` being what it returns, `tx` once more when it reports an
    error, and the batch it leaves; and the batch it leaves is constrained. It panics only on a
    `U256` overflow, which the batch's last nonce and gas limits next to the config's rule out. -/
theorem insert_conserves_constraints (config : PackingPoolConfig) (b : PackingBatch TX) (tx : TX)
    (hb : b.Constrained config) (hs : PackingPoolTransaction.sender tx = b.sender) :
    (∀ r, b.insert tx config = some r →
      b.txs ++ [tx] ~ r.1.1 ++ (if r.1.2.isOk then [] else [tx]) ++ r.2.txs ∧
        r.2.Constrained config) ∧
    (b.startNonce + b.txs.length ≤ U256MAX →
      (∀ x ∈ tx :: b.txs, config.addressGasLimit + gasLimit x ≤ U256MAX) →
      (b.insert tx config).isSome) :=
  ⟨fun _ h => ⟨insert_perm h, insert_constrained hb hs h⟩, insert_isSome hb⟩

/-- Two transactions of sender `7` at gas `30`, nonces `0` and `1`. -/
def pairBatch : PackingBatch MockTransaction := ⟨[⟨0, 7, 0, 1, 30⟩, ⟨1, 7, 1, 2, 30⟩], 60⟩

/-- The replacement of nonce `1` at a higher price and gas `40`. -/
def pairReplacement : MockTransaction := ⟨2, 7, 1, 3, 40⟩

theorem pairBatch_constrained : pairBatch.Constrained smallConfig :=
  constrained_of_chain (s := 7) (by decide) (by decide)
    (List.isChain_cons_cons.mpr ⟨⟨rfl, by decide⟩, List.isChain_singleton _⟩) rfl (by decide)
    (fun _ => by decide)

theorem insert_conserves_constraints_pair :
    pairBatch.Constrained smallConfig ∧
      PackingPoolTransaction.sender pairReplacement = pairBatch.sender ∧
      ((∀ r, pairBatch.insert pairReplacement smallConfig = some r →
        pairBatch.txs ++ [pairReplacement] ~ r.1.1 ++
            (if r.1.2.isOk then [] else [pairReplacement]) ++ r.2.txs ∧
          r.2.Constrained smallConfig) ∧
      (pairBatch.startNonce + pairBatch.txs.length ≤ U256MAX →
        (∀ x ∈ pairReplacement :: pairBatch.txs, smallConfig.addressGasLimit + gasLimit x ≤ U256MAX) →
        (pairBatch.insert pairReplacement smallConfig).isSome)) :=
  ⟨pairBatch_constrained, rfl,
    insert_conserves_constraints smallConfig pairBatch pairReplacement pairBatch_constrained rfl⟩

/-- The small config with a gas limit of `U256::MAX`. -/
def maxGasConfig : PackingPoolConfig := { smallConfig with addressGasLimit := U256MAX }

/-- Sender `7`'s nonce `0`, with all the gas a `U256` holds. -/
def maxGasTx : MockTransaction := ⟨0, 7, 0, 1, U256MAX⟩

/-- Sender `7`'s nonce `1`, with gas `1`. -/
def topUpTx : MockTransaction := ⟨1, 7, 1, 1, 1⟩

/-- The saturating test lets the append through, and the total passes `U256::MAX`, where the
    code's `+=` panics. -/
theorem insert_append_overflows :
    (new maxGasTx).Constrained maxGasConfig ∧
      PackingPoolTransaction.sender topUpTx = (new maxGasTx).sender ∧
      (new maxGasTx).insert topUpTx maxGasConfig = none :=
  ⟨constrained_new maxGasTx (by decide), rfl, by decide⟩

end PackingBatch

end Mazze.Packing
