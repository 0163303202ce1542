import Mazze.Primitives.VoteStake

/-!
# `VoteStakeList` refines the lock model

The lock model of a sequence of calls: at block `t`, the locked amount is the largest amount
among the `vote_lock(amount, unlock)` calls with `unlock > t`, or `0` (`locked`). Both it and
the list are read by `lockOf`, the largest amount among entries unlocking after `t`.

The list is a *staircase*: unlock blocks strictly ascending, amounts strictly descending
(`Staircase`). On a staircase the largest amount unlocking after `t` is that of the first entry
unlocking after `t`, which is what `withdrawable_staking_balance` reads
(`withdrawableStakingBalance_eq`). `vote_lock` keeps the staircase and raises the lock of every
block before its unlock block to its amount (`voteLock_spec`); `remove_expired_vote_stake_info`
keeps it and changes no lock from its block on (`removeExpired_spec`). Over a run, the list
agrees with the model at every block from the last removal on (`runOps_spec`).

Each step is proved on the list split at the new lock's unlock block, `A ++ B` with `A`
unlocking before it (`BinarySearch.exists_split_of_sorted`), where the search answers at the
length of `A` (`searchUnlock_append`).
-/

set_option autoImplicit false

namespace Mazze.Primitives

open BinarySearch

/-- The shape `vote_lock` keeps: unlock blocks strictly ascending, amounts strictly
    descending. -/
def Staircase (l : List VoteStakeInfo) : Prop :=
  l.Pairwise fun a b => a.unlockBlockNumber < b.unlockBlockNumber ∧ b.amount < a.amount

instance (l : List VoteStakeInfo) : Decidable (Staircase l) :=
  inferInstanceAs (Decidable (l.Pairwise _))

/-- The largest amount among the entries of `l` that unlock after block `t`, or `0`. -/
def lockOf : List VoteStakeInfo → Nat → Nat
  | [], _ => 0
  | v :: l, t => if t < v.unlockBlockNumber then max v.amount (lockOf l t) else lockOf l t

/-! ## The lock of a list of entries -/

section LockOf

variable {l l₁ l₂ : List VoteStakeInfo} {t m : Nat}

theorem lockOf_append : lockOf (l₁ ++ l₂) t = max (lockOf l₁ t) (lockOf l₂ t) := by
  induction l₁ with
  | nil => simp [lockOf]
  | cons v l₁ ih =>
    simp only [List.cons_append, lockOf, ih]
    split_ifs <;> omega

/-- A bound on the lock is a bound on every entry unlocking after `t`. -/
theorem lockOf_le_iff : lockOf l t ≤ m ↔ ∀ v ∈ l, t < v.unlockBlockNumber → v.amount ≤ m := by
  induction l with
  | nil => simp [lockOf]
  | cons v l ih =>
    simp only [lockOf, List.mem_cons, forall_eq_or_imp]
    split_ifs with hv <;> simp [ih, hv]

theorem le_lockOf {v : VoteStakeInfo} (hv : v ∈ l) (ht : t < v.unlockBlockNumber) :
    v.amount ≤ lockOf l t :=
  lockOf_le_iff.mp le_rfl v hv ht

theorem lockOf_eq_zero (h : ∀ v ∈ l, v.unlockBlockNumber ≤ t) : lockOf l t = 0 :=
  Nat.le_zero.mp (lockOf_le_iff.mpr fun v hv ht => absurd (h v hv) (Nat.not_le.mpr ht))

/-- Entries below a lock `⟨a, u⟩` lock no more than it does. -/
theorem lockOf_le_ite {a u : Nat} (h : ∀ v ∈ l, v.amount ≤ a ∧ v.unlockBlockNumber ≤ u) :
    lockOf l t ≤ if t < u then a else 0 := by
  refine lockOf_le_iff.mpr fun v hv ht => ?_
  have hvu := h v hv
  rw [if_pos (by omega)]
  exact hvu.1

end LockOf

/-! ## Staircases -/

section Staircase

variable {l A E C : List VoteStakeInfo} {t : Nat}

theorem Staircase.sorted (h : Staircase l) :
    l.Pairwise fun a b => a.unlockBlockNumber < b.unlockBlockNumber :=
  h.imp And.left

theorem Staircase.sublist {l' : List VoteStakeInfo} (h : Staircase l) (hl : l'.Sublist l) :
    Staircase l' :=
  List.Pairwise.sublist hl h

/-- On a staircase, the lock before the first entry unlocks is that entry's amount. -/
theorem Staircase.lockOf_cons {v : VoteStakeInfo} (h : Staircase (v :: l))
    (ht : t < v.unlockBlockNumber) : lockOf (v :: l) t = v.amount := by
  have hl : lockOf l t ≤ v.amount :=
    lockOf_le_iff.mpr fun w hw _ => by
      have hvw : v.unlockBlockNumber < w.unlockBlockNumber ∧ w.amount < v.amount :=
        List.rel_of_pairwise_cons h hw
      exact Nat.le_of_lt hvw.2
  rw [lockOf, if_pos ht, Nat.max_eq_left hl]

/-- What the search for `k` answers on a staircase split at `k`. -/
theorem searchUnlock_append {B : List VoteStakeInfo} {k : Nat} (h : Staircase (A ++ B))
    (hA : ∀ v ∈ A, v.unlockBlockNumber < k) (hB : ∀ v ∈ B, k ≤ v.unlockBlockNumber) :
    searchUnlock (A ++ B) k =
      if (B.head?).map (·.unlockBlockNumber) = some k then .ok A.length else .error A.length := by
  have hasc := ascending_compare VoteStakeInfo.unlockBlockNumber h.sorted k
  have hlt : ∀ v ∈ A, compare v.unlockBlockNumber k = .lt :=
    fun v hv => compare_lt_iff_lt.mpr (hA v hv)
  have hge : ∀ v ∈ B.head?, compare v.unlockBlockNumber k ≠ .lt := fun v hv =>
    compare_lt_iff_lt.not.mpr (Nat.not_lt.mpr (hB v (List.mem_of_mem_head? hv)))
  rw [searchUnlock, binarySearchBy_append hasc hlt hge]
  cases B with
  | nil => rfl
  | cons v B => simp

theorem index_searchUnlock_append {B : List VoteStakeInfo} {k : Nat} (h : Staircase (A ++ B))
    (hA : ∀ v ∈ A, v.unlockBlockNumber < k) (hB : ∀ v ∈ B, k ≤ v.unlockBlockNumber) :
    Except.index (searchUnlock (A ++ B) k) = A.length := by
  rw [searchUnlock_append h hA hB]
  split_ifs <;> rfl

/-- What stays of a staircase after popping the entries that lock no more than `a` locks more
    than `a`. -/
theorem Staircase.lt_amount_of_mem_rdropWhile {a : Nat} (h : Staircase A) {y : VoteStakeInfo}
    (hy : y ∈ A.rdropWhile fun v => v.amount ≤ a) : a < y.amount := by
  have hne : (A.rdropWhile fun v => v.amount ≤ a) ≠ [] := List.ne_nil_of_mem hy
  have hlast := List.rdropWhile_last_not (fun v => decide (v.amount ≤ a)) A hne
  have hdesc : (A.rdropWhile fun v => v.amount ≤ a).Pairwise
      fun y z => z.amount ≤ y.amount :=
    (h.sublist (List.rdropWhile_prefix _ A).sublist).imp fun hyz => Nat.le_of_lt hyz.2
  have : Std.Refl fun y z : VoteStakeInfo => z.amount ≤ y.amount := ⟨fun _ => Nat.le_refl _⟩
  have hy' := hdesc.rel_getLast hy
  simp only [decide_eq_true_eq, Nat.not_le] at hlast
  omega

end Staircase

/-! ## The three calls -/

section Calls

variable {l A E C : List VoteStakeInfo} {a u t : Nat}

/-- `withdrawable_staking_balance` on a staircase is the balance less the lock. -/
theorem withdrawableStakingBalance_eq (h : Staircase l) {s : Nat} (hs : lockOf l t ≤ s) :
    withdrawableStakingBalance l s t = some (s - lockOf l t) := by
  obtain ⟨A, B, rfl, hA, hB⟩ := exists_split_of_sorted _ h.sorted (t + 1)
  have hA0 : lockOf A t = 0 := lockOf_eq_zero fun v hv => Nat.lt_succ_iff.mp (hA v hv)
  unfold withdrawableStakingBalance
  rw [index_searchUnlock_append h hA hB]
  cases B with
  | nil =>
    -- nothing unlocks after `t`
    simp [hA0]
  | cons v B =>
    -- the first entry unlocking after `t` locks the most
    have hv : t < v.unlockBlockNumber := hB v (by simp)
    have hlock : lockOf (A ++ v :: B) t = v.amount := by
      rw [lockOf_append, hA0, (h.sublist (List.sublist_append_right A _)).lockOf_cons hv]
      simp
    rw [hlock] at hs ⊢
    rw [if_pos (by simp), if_neg (by simp), List.getElem?_append_right (Nat.le_refl _),
      Nat.sub_self]
    simp [Checked.sub_of_le hs]

/-- `remove_expired_vote_stake_info` keeps the list or drops a prefix found by the search. -/
theorem removeExpiredVoteStakeInfo_cases (l : List VoteStakeInfo) (b : Nat) :
    removeExpiredVoteStakeInfo l b = l ∨
      removeExpiredVoteStakeInfo l b =
        l.drop (Except.index (searchUnlock l (b + 1))) := by
  unfold removeExpiredVoteStakeInfo
  split
  · exact .inl rfl
  · split_ifs
    · exact .inr rfl
    · exact .inl rfl

/-- `remove_expired_vote_stake_info` keeps the staircase and every lock from its block on. -/
theorem removeExpired_spec (h : Staircase l) (b : Nat) :
    Staircase (removeExpiredVoteStakeInfo l b) ∧
      ∀ t, b ≤ t → lockOf (removeExpiredVoteStakeInfo l b) t = lockOf l t := by
  obtain ⟨A, B, rfl, hA, hB⟩ := exists_split_of_sorted _ h.sorted (b + 1)
  rcases removeExpiredVoteStakeInfo_cases (A ++ B) b with hr | hr
  · rw [hr]
    exact ⟨h, fun _ _ => rfl⟩
  · -- the dropped entries unlock by block `b`
    rw [hr, index_searchUnlock_append h hA hB, List.drop_left]
    refine ⟨h.sublist (List.sublist_append_right A B), fun t hbt => ?_⟩
    have hA0 : lockOf A t = 0 := lockOf_eq_zero fun v hv => by
      have := hA v hv
      omega
    rw [lockOf_append, hA0, Nat.zero_max]

theorem insertIdx_append_length {α : Type} (A B : List α) (x : α) :
    (A ++ B).insertIdx A.length x = A ++ x :: B := by
  induction A with
  | nil => simp [List.insertIdx_zero]
  | cons y A ih => simp [List.insertIdx_succ_cons, ih]

theorem voteLock_of_write (hw : voteLockWrite l a u = some (some (A ++ ⟨a, u⟩ :: C, A.length))) :
    voteLock l a u = some (A.rdropWhile (fun v => v.amount ≤ a) ++ ⟨a, u⟩ :: C) := by
  simp [voteLock, hw, popDominated]

theorem voteLock_of_no_write (hw : voteLockWrite l a u = some none) : voteLock l a u = some l := by
  simp [voteLock, hw]

/-- A lock written after `A` in place of entries `E` that lock no more than it, before `C`:
    the lock before its unlock block is raised to its amount, and nothing else changes. -/
theorem lockOf_written (hA : ∀ v ∈ A, v.unlockBlockNumber < u)
    (hE : ∀ v ∈ E, v.amount ≤ a ∧ v.unlockBlockNumber ≤ u) :
    lockOf (A.rdropWhile (fun v => v.amount ≤ a) ++ ⟨a, u⟩ :: C) t =
      max (lockOf (A ++ E ++ C) t) (if t < u then a else 0) := by
  -- `A` is what stays of it followed by the popped entries, which lock no more than `a`
  have hpopped : lockOf (A.rtakeWhile fun v => v.amount ≤ a) t ≤ if t < u then a else 0 :=
    lockOf_le_ite fun v hv =>
      ⟨by simpa using List.mem_rtakeWhile_imp hv,
        Nat.le_of_lt (hA v ((List.rtakeWhile_suffix _ A).subset hv))⟩
  have hE' : lockOf E t ≤ if t < u then a else 0 := lockOf_le_ite hE
  conv_rhs => rw [← List.rdropWhile_append_rtakeWhile (p := fun v => decide (v.amount ≤ a)) (l := A)]
  simp only [lockOf_append, lockOf]
  split_ifs at hpopped hE' ⊢ <;> omega

/-- The written lock keeps the staircase: what stays of `A` locks more, `C` unlocks later and
    locks less. -/
theorem Staircase.written (h : Staircase (A ++ E ++ C)) (hA : ∀ v ∈ A, v.unlockBlockNumber < u)
    (hC : ∀ v ∈ C, u < v.unlockBlockNumber ∧ v.amount < a) :
    Staircase (A.rdropWhile (fun v => v.amount ≤ a) ++ ⟨a, u⟩ :: C) := by
  have hkept : (A.rdropWhile fun v => v.amount ≤ a).Sublist A :=
    (List.rdropWhile_prefix _ A).sublist
  have hAs : Staircase A := h.sublist ((List.sublist_append_left A E).trans
    (List.sublist_append_left _ C))
  have hCs : Staircase C := h.sublist (List.sublist_append_right _ C)
  have hAC : ∀ y ∈ A, ∀ z ∈ C,
      y.unlockBlockNumber < z.unlockBlockNumber ∧ z.amount < y.amount := fun y hy z hz =>
    (List.pairwise_append.mp h).2.2 y (List.mem_append_left E hy) z hz
  unfold Staircase
  rw [List.pairwise_append, List.pairwise_cons]
  refine ⟨hAs.sublist hkept, ⟨hC, hCs⟩, fun y hy z hz => ?_⟩
  rcases List.mem_cons.mp hz with rfl | hz
  · exact ⟨hA y (hkept.subset hy), hAs.lt_amount_of_mem_rdropWhile hy⟩
  · exact hAC y (hkept.subset hy) z hz

/-- What a written lock does: the staircase is kept, and the lock before `u` is raised to `a`. -/
theorem voteLock_written (h : Staircase (A ++ E ++ C))
    (hw : voteLockWrite (A ++ E ++ C) a u = some (some (A ++ ⟨a, u⟩ :: C, A.length)))
    (hA : ∀ v ∈ A, v.unlockBlockNumber < u) (hE : ∀ v ∈ E, v.amount ≤ a ∧ v.unlockBlockNumber ≤ u)
    (hC : ∀ v ∈ C, u < v.unlockBlockNumber ∧ v.amount < a) :
    ∃ l', voteLock (A ++ E ++ C) a u = some l' ∧ Staircase l' ∧
      ∀ t, lockOf l' t = max (lockOf (A ++ E ++ C) t) (if t < u then a else 0) :=
  ⟨_, voteLock_of_write hw, h.written hA hC, fun _ => lockOf_written hA hE⟩

/-- `vote_lock(a, u)` keeps the staircase and raises the lock of every block before `u` to
    `a`. -/
theorem voteLock_spec (h : Staircase l) (a u : Nat) :
    ∃ l', voteLock l a u = some l' ∧ Staircase l' ∧
      ∀ t, lockOf l' t = max (lockOf l t) (if t < u then a else 0) := by
  obtain ⟨A, B, rfl, hA, hB⟩ := exists_split_of_sorted _ h.sorted u
  have hsearch := searchUnlock_append h hA hB
  cases B with
  | nil =>
    -- `Err(len)`: the lock goes last
    have hw : voteLockWrite (A ++ [] ++ []) a u =
        some (some (A ++ ⟨a, u⟩ :: [], A.length)) := by
      simp only [List.append_nil] at hsearch ⊢
      simp [voteLockWrite, hsearch, List.insertIdx_length_self]
    simpa using voteLock_written (by simpa using h) hw hA (by simp) (by simp)
  | cons v B =>
    have hvu : u ≤ v.unlockBlockNumber := hB v (by simp)
    have hvB : Staircase (v :: B) := h.sublist (List.sublist_append_right A _)
    have hC : ∀ w ∈ B, u < w.unlockBlockNumber ∧ w.amount < v.amount := fun w hw => by
      have hvw : v.unlockBlockNumber < w.unlockBlockNumber ∧ w.amount < v.amount :=
        List.rel_of_pairwise_cons hvB hw
      exact ⟨lt_of_le_of_lt hvu hvw.1, hvw.2⟩
    by_cases hva : v.amount < a
    · rcases Nat.lt_or_eq_of_le hvu with hlt | heq
      · -- `Err(index)` before an entry that locks less: the lock is inserted
        have hw : voteLockWrite (A ++ [] ++ v :: B) a u =
            some (some (A ++ ⟨a, u⟩ :: v :: B, A.length)) := by
          simp only [List.append_nil] at hsearch ⊢
          simp [voteLockWrite, hsearch, Nat.ne_of_gt hlt, hva,
            insertIdx_append_length]
        simpa using voteLock_written (by simpa using h) hw hA (by simp)
          (by simpa [hlt, hva] using fun w hw => ⟨(hC w hw).1, (hC w hw).2.trans hva⟩)
      · -- `Ok(index)` at an entry of the same unlock block that locks less: it is updated
        obtain ⟨va, vu⟩ := v
        subst heq
        have hw : voteLockWrite (A ++ [⟨va, u⟩] ++ B) a u =
            some (some (A ++ ⟨a, u⟩ :: B, A.length)) := by
          simp only [List.append_assoc, List.singleton_append] at hsearch ⊢
          simp [voteLockWrite, hsearch, hva, List.set_append_right]
        simpa using voteLock_written (by simpa using h) hw hA (by simp [Nat.le_of_lt hva])
          fun w hw => ⟨(hC w hw).1, (hC w hw).2.trans hva⟩
    · -- an entry at `u` or later already locks as much: nothing is written
      have hw : voteLockWrite (A ++ v :: B) a u = some none := by
        unfold voteLockWrite
        rw [hsearch]
        split_ifs <;> simp [hva]
      refine ⟨_, voteLock_of_no_write hw, h, fun t => ?_⟩
      have hle : (if t < u then a else 0) ≤ lockOf (A ++ v :: B) t := by
        split_ifs with htu
        · exact le_trans (Nat.le_of_not_lt hva)
            (le_lockOf (by simp) (lt_of_lt_of_le htu hvu))
        · exact Nat.zero_le _
      rw [Nat.max_eq_left hle]

end Calls

/-! ## Runs -/

/-- The locks taken by the calls, in order. -/
def locks : List VoteOp → List VoteStakeInfo
  | [] => []
  | .voteLock amount unlockBlockNumber :: ops => ⟨amount, unlockBlockNumber⟩ :: locks ops
  | .removeExpired _ :: ops => locks ops

/-- The blocks of the `remove_expired_vote_stake_info` calls, in order. -/
def removals : List VoteOp → List Nat
  | [] => []
  | .voteLock _ _ :: ops => removals ops
  | .removeExpired blockNumber :: ops => blockNumber :: removals ops

/-- The lock model: at block `t`, the largest amount among the `vote_lock(amount, unlock)` calls
    with `unlock > t`, or `0`. -/
def locked (ops : List VoteOp) (t : Nat) : Nat := lockOf (locks ops) t

/-- Over a run from a staircase that agrees with the locks `hist` from block `b₀` on, the list
    stays a staircase and agrees with `hist` and the run's locks from `b₀` and every removal's
    block on. -/
theorem runOps_spec (ops : List VoteOp) {l hist : List VoteStakeInfo} {b₀ : Nat}
    (h : Staircase l) (hl : ∀ t, b₀ ≤ t → lockOf l t = lockOf hist t) :
    ∃ l', runOps ops l = some l' ∧ Staircase l' ∧
      ∀ t, b₀ ≤ t → (∀ b ∈ removals ops, b ≤ t) →
        lockOf l' t = lockOf (hist ++ locks ops) t := by
  -- induction on the calls; the history and the block the agreement starts at move with them
  induction ops generalizing l hist b₀ with
  | nil => exact ⟨l, rfl, h, fun t ht _ => by simpa [locks] using hl t ht⟩
  | cons op ops ih =>
    cases op with
    | voteLock a u =>
      obtain ⟨l₁, h₁, hs₁, hlock₁⟩ := voteLock_spec h a u
      have hl₁ : ∀ t, b₀ ≤ t → lockOf l₁ t = lockOf (hist ++ [⟨a, u⟩]) t := fun t ht => by
        rw [hlock₁, hl t ht, lockOf_append]
        simp [lockOf]
      obtain ⟨l', hrun, hs', hl'⟩ := ih hs₁ hl₁
      refine ⟨l', by simp [runOps, VoteOp.apply, h₁, hrun], hs', fun t ht hb => ?_⟩
      simpa [locks] using hl' t ht hb
    | removeExpired b =>
      obtain ⟨hs₁, hlock₁⟩ := removeExpired_spec h b
      have hl₁ : ∀ t, max b₀ b ≤ t → lockOf (removeExpiredVoteStakeInfo l b) t =
          lockOf hist t := fun t ht => by
        rw [hlock₁ t (Nat.max_le.mp ht).2, hl t (Nat.max_le.mp ht).1]
      obtain ⟨l', hrun, hs', hl'⟩ := ih hs₁ hl₁
      refine ⟨l', by simp [runOps, VoteOp.apply, hrun], hs', fun t ht hb => ?_⟩
      have hbt : b ≤ t := hb b (by simp [removals])
      simpa [locks] using hl' t (max_le ht hbt) fun b' hb' => hb b' (by simp [removals, hb'])

/-- In a non-decreasing list, every element is at most the last one. -/
theorem le_getLast_getD {rs : List Nat} (h : rs.Pairwise (· ≤ ·)) {b : Nat} (hb : b ∈ rs) :
    b ≤ rs.getLast?.getD 0 := by
  rw [List.getLast?_eq_some_getLast (List.ne_nil_of_mem hb), Option.getD_some]
  exact h.rel_getLast hb

theorem voteStakeList_refines_lock_model (ops : List VoteOp)
    (hmono : (removals ops).Pairwise (· ≤ ·)) :
    ∃ l, runOps ops [] = some l ∧ Staircase l ∧
      ∀ t s, (removals ops).getLast?.getD 0 ≤ t → locked ops t ≤ s →
        withdrawableStakingBalance l s t = some (s - locked ops t) := by
  obtain ⟨l, hrun, hs, hl⟩ :=
    @runOps_spec ops [] [] 0 List.Pairwise.nil fun _ _ => rfl
  refine ⟨l, hrun, hs, fun t s ht hst => ?_⟩
  -- the removals are non-decreasing, so `t` is past every one of them
  have hall : ∀ b ∈ removals ops, b ≤ t := fun b hb => le_trans (le_getLast_getD hmono hb) ht
  have hlock : lockOf l t = locked ops t := by
    simpa [locked] using hl t (Nat.zero_le t) hall
  rw [← hlock] at hst ⊢
  exact withdrawableStakingBalance_eq hs hst

theorem voteStakeList_refines_lock_model_three :
    (removals [.voteLock 5 10, .voteLock 3 20, .removeExpired 4]).Pairwise (· ≤ ·) ∧
    ∃ l, runOps [.voteLock 5 10, .voteLock 3 20, .removeExpired 4] [] = some l ∧ Staircase l ∧
      ∀ t s, (removals [.voteLock 5 10, .voteLock 3 20, .removeExpired 4]).getLast?.getD 0 ≤ t →
        locked [.voteLock 5 10, .voteLock 3 20, .removeExpired 4] t ≤ s →
        withdrawableStakingBalance l s t =
          some (s - locked [.voteLock 5 10, .voteLock 3 20, .removeExpired 4] t) :=
  ⟨by decide, voteStakeList_refines_lock_model _ (by decide)⟩

end Mazze.Primitives
