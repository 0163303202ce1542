import Mathlib
import Mazze.Lib.Except

/-!
# The timer chain and its accumulative LCA list

`ConsensusGraphInner` keeps the timer chain (`timer_chain`, the arena indices of the
heaviest chain of timer blocks since the era genesis) and beside it
`timer_chain_accumulative_lca`, whose last entry is the force-confirm point
(`compute_global_force_confirm`, `consensus_inner/mod.rs` L1656-L1667). Entry `j` is the
LCA of the `timer_chain_beta` timer blocks ending at `timer_chain[j]`, kept only when it is
higher than entry `j - 1`; the first `timer_chain_beta - 1` entries are the era genesis.

Three code paths write the list (`mod.rs`):

* `update_timer_chain` (L3300-L3398) pushes one entry when the chain grows by one block;
* the first loop of `compute_timer_chain_tuple` (L3172-L3225) recomputes the entries that
  only need the common prefix when the chain switches to a longer fork;
* its second loop (L3226-L3295) computes the entries of the new fork.

This module models the three paths on the two lists, with the arena read through
`lca` (`ConsensusGraphInner::lca`, on the weight tree) and `height`, and states the
recurrence the list is meant to satisfy (`accLcaSpec`). The rest of the timer-chain tuple
(the `res` map of ledger timer heights, computed by a topological sort of the fork's
future) does not reach the two lists, and the tuple's `fork_at` and `tmp_chain` are
inputs here.

Arena indices are `usize`, and `NULL = !0`. Panics (an index out of bounds, an
underflowing `usize` subtraction, a failed `assert_eq!`) are `Except String`.
-/

set_option autoImplicit false

namespace Mazze.Consensus

/-- `NULL = !0`, on a 64-bit `usize`. -/
def NULL : Nat := 2 ^ 64 - 1

/-- `v[i]`, which panics out of bounds. -/
def getIdx (v : List Nat) (i : Nat) : Except String Nat :=
  match v[i]? with
  | some x => .ok x
  | none => .error "index out of bounds"

/-- `a - b` on `usize`, which panics below zero. -/
def usizeSub (a b : Nat) : Except String Nat :=
  if b ≤ a then .ok (a - b) else .error "attempt to subtract with overflow"

/-- `Vec::resize(n, value)`. -/
def resize (v : List Nat) (n value : Nat) : List Nat :=
  v.take n ++ List.replicate (n - v.length) value

section
variable (lca : Nat → Nat → Nat) (height : Nat → Nat)

/-- The LCA loop the three paths share:
    `for j in js { if lca == NULL { break; } lca = self.lca(lca, chain[j]); }`,
    started from `start`, over the blocks `bs` in the order the indices are visited. -/
def lcaFold (start : Nat) (bs : List Nat) : Nat :=
  bs.foldl (fun acc b => if acc == NULL then acc else lca acc b) start

/-- The height comparison that keeps an entry monotone:
    `if lca != NULL && height[last_lca] < height[lca] { lca } else { last_lca }`. -/
def higherLca (last l : Nat) : Nat :=
  if l != NULL && decide (height last < height l) then l else last

@[simp] theorem lcaFold_nil (start : Nat) : lcaFold lca start [] = start := rfl

variable (beta genesis : Nat)

/-! ## The recurrence -/

/-- `lca(c[j-beta+1 ..= j])`, folded from `c[j]` over `c[j-beta+1 .. j]` in the order
    `update_timer_chain` visits them. -/
def windowLca (c : List Nat) (j : Nat) : Nat :=
  lcaFold lca (c.getD j 0) ((List.range' (j + 1 - beta) (beta - 1)).map fun i => c.getD i 0)

/-- Entry `j` of the list the claim describes for the chain `c`: the genesis below
    `beta - 1`, and otherwise the higher of entry `j - 1` (the genesis for `j = 0`) and
    `windowLca c j`. -/
def accLcaEntry (c : List Nat) : Nat → Nat
  | 0 => if 1 < beta then genesis else higherLca height genesis (windowLca lca beta c 0)
  | j + 1 =>
    if j + 2 < beta then genesis
    else higherLca height (accLcaEntry c j) (windowLca lca beta c (j + 1))

/-- The whole list: `max(0, c.len() - beta)` entries. -/
def accLcaSpec (c : List Nat) : List Nat :=
  (List.range (c.length - beta)).map (accLcaEntry lca height beta genesis c)

/-! ## `update_timer_chain`: the push of one block -/

/-- The entry `update_timer_chain` pushes after `timer_chain.push(me)` (L3351-L3392), on
    the chain `tc` that already ends in `me`. -/
def pushAccLca (tc acc : List Nat) : Except String (List Nat) := do
  if tc.length ≥ 2 * beta then
    let s := tc.length - 2 * beta
    let e := tc.length - beta
    let start ← getIdx tc (e - 1)
    let bs ← (List.range' s (e - 1 - s)).mapM (getIdx tc)
    let l := lcaFold lca start bs
    let last := acc.getLast?.getD genesis
    let acc' := acc ++ [higherLca height last l]
    let expected ← usizeSub tc.length beta
    if acc'.length != expected then
      throw "assertion `left == right` failed"
    return acc'
  else if tc.length > beta then
    return acc ++ [genesis]
  else
    return acc

/-! ## `compute_timer_chain_tuple`: the two loops -/

/-- The first loop (L3172-L3225): the entries `timer_chain.len() - beta ..` that the common
    prefix `timer_chain[..fork_at_index]` decides, when the new chain is longer and forks
    within the last `beta` blocks. The entry of index `end` is the genesis when
    `end < beta`. -/
def firstLoopLca (tc acc : List Nat) (forkAtIndex tmpLen : Nat) : Except String (List Nat) := do
  let gap ← usizeSub tc.length forkAtIndex
  if tmpLen > gap && gap < beta then
    let s := max tc.length beta
    let e := min tmpLen beta
    let step (st : Nat × List Nat) (i : Nat) : Except String (Nat × List Nat) := do
      let (last, out) := st
      let end' := i - beta
      if end' < beta then return (last, out ++ [genesis])
      let start ← getIdx tc end'
      let bs ← (List.range' (end' - beta + 1) (beta - 1)).mapM (getIdx tc)
      let l := lcaFold lca start bs
      let last := higherLca height last l
      return (last, out ++ [last])
    let (_, out) ← (List.range' s (forkAtIndex + e - s)).foldlM step
      (acc.getLast?.getD genesis, [])
    return out
  else
    return []

/-- The second loop (L3226-L3295): one entry per block of the new fork past its first
    `beta`, the entry of index `fork_at_index + i` being the genesis when
    `fork_at_index + i + 1 < beta`. -/
def secondLoopLca (tc acc : List Nat) (forkAtIndex : Nat) (tmpChain firstLoop : List Nat) :
    Except String (List Nat) := do
  if tmpChain.length > beta then
    let last ← match firstLoop.getLast? with
      | some l => pure l
      | none => if forkAtIndex == 0 then pure genesis else getIdx acc (forkAtIndex - 1)
    let betaPred ← usizeSub beta 1
    let step (st : Nat × List Nat) (i : Nat) : Except String (Nat × List Nat) := do
      let (last, out) := st
      if forkAtIndex + i + 1 < beta then return (last, out ++ [genesis])
      let start ← getIdx tmpChain i
      let s := if i < betaPred then 0 else i + 1 - beta
      let fromFork ← (List.range' s (i - s)).mapM (getIdx tmpChain)
      let fromPrefix ← (List.range' (forkAtIndex + i + 1 - beta)
        (forkAtIndex - (forkAtIndex + i + 1 - beta))).mapM (getIdx tc)
      let l := lcaFold lca (lcaFold lca start fromFork) fromPrefix
      let last := higherLca height last l
      return (last, out ++ [last])
    let (_, out) ← (List.range (tmpChain.length - beta)).foldlM step (last, [])
    return firstLoop ++ out
  else
    return firstLoop

/-- The accumulative-LCA part of `compute_timer_chain_tuple`: `tmp_lca`. -/
def computeTimerChainLca (tc acc : List Nat) (forkAtIndex : Nat) (tmpChain : List Nat) :
    Except String (List Nat) := do
  let first ← firstLoopLca lca height beta genesis tc acc forkAtIndex tmpChain.length
  secondLoopLca lca height beta genesis tc acc forkAtIndex tmpChain first

/-! ## `update_timer_chain` on the two lists -/

/-- The two lists of `ConsensusGraphInner` that the timer chain update writes. -/
structure TimerChainState where
  timerChain : List Nat
  timerChainAccumulativeLca : List Nat
  deriving DecidableEq, Repr

/-- `update_timer_chain(me)` (L3300-L3398), given the fork index and `tmp_chain` of the
    tuple: truncate at the fork, splice in `tmp_chain` and the tuple's LCA entries, and
    push `me` when it is a valid timer block. -/
def updateTimerChain (st : TimerChainState) (forkAtIndex : Nat) (tmpChain : List Nat)
    (me : Nat) (meIsValidTimer : Bool) : Except String TimerChainState := do
  let extraLca ← computeTimerChainLca lca height beta genesis st.timerChain
    st.timerChainAccumulativeLca forkAtIndex tmpChain
  let tc := resize st.timerChain (forkAtIndex + tmpChain.length) 0
  let newChainLcaSize := if tc.length > beta then tc.length - beta else 0
  let acc := resize st.timerChainAccumulativeLca newChainLcaSize 0
  -- `timer_chain[fork_at_index + i] = tmp_chain[i]` overwrites the resized tail.
  let tc := tc.take forkAtIndex ++ tmpChain
  -- `acc[new_chain_lca_size - extra_lca.len() + i] = extra_lca[i]` overwrites its tail.
  let offset ← usizeSub newChainLcaSize extraLca.length
  let acc := acc.take offset ++ extraLca
  if meIsValidTimer then
    let tc := tc ++ [me]
    let acc ← pushAccLca lca height beta genesis tc acc
    return ⟨tc, acc⟩
  else
    return ⟨tc, acc⟩

/-! ## The push path keeps the recurrence -/

theorem mapM_getIdx_range' (c : List Nat) :
    ∀ (s n : Nat), s + n ≤ c.length →
      (List.range' s n).mapM (getIdx c) = .ok ((List.range' s n).map fun i => c.getD i 0) := by
  intro s n
  induction n generalizing s with
  | zero => intro _; rfl
  | succ n ih =>
    intro h
    have hs : s < c.length := by omega
    rw [List.range'_succ, List.mapM_cons, ih (s + 1) (by omega)]
    simp [getIdx, List.getD_eq_getElem?_getD, hs]

theorem windowLca_append (c d : List Nat) (j : Nat) (hβ : beta ≤ j + 1) (hj : j < c.length) :
    windowLca lca beta (c ++ d) j = windowLca lca beta c j := by
  unfold windowLca
  congr 1
  · simp [List.getD_eq_getElem?_getD, List.getElem?_append_left hj]
  · apply List.map_congr_left
    intro i hi
    simp only [List.mem_range'_1] at hi
    simp [List.getD_eq_getElem?_getD, List.getElem?_append_left (show i < c.length by omega)]

theorem accLcaEntry_append (c d : List Nat) :
    ∀ j, j < c.length → accLcaEntry lca height beta genesis (c ++ d) j =
      accLcaEntry lca height beta genesis c j := by
  intro j
  induction j with
  | zero =>
    intro hj
    simp only [accLcaEntry]
    split
    · rfl
    · rw [windowLca_append lca beta c d 0 (by omega) hj]
  | succ j ih =>
    intro hj
    simp only [accLcaEntry]
    split
    · rfl
    · rw [windowLca_append lca beta c d (j + 1) (by omega) hj, ih (by omega)]

theorem accLcaSpec_push (c : List Nat) (me : Nat) :
    accLcaSpec lca height beta genesis (c ++ [me]) =
      accLcaSpec lca height beta genesis c ++
        (if beta < c.length + 1 then [accLcaEntry lca height beta genesis (c ++ [me]) (c.length - beta)]
         else []) := by
  unfold accLcaSpec
  split
  · rename_i h
    have hlen : (c ++ [me]).length - beta = (c.length - beta) + 1 := by simp; omega
    rw [hlen, List.range_succ, List.map_append]
    congr 1
    apply List.map_congr_left
    intro j hj
    simp only [List.mem_range] at hj
    exact accLcaEntry_append lca height beta genesis c [me] j (by omega)
  · rename_i h
    have h1 : (c ++ [me]).length - beta = 0 := by simp; omega
    have h2 : c.length - beta = 0 := by omega
    simp [h2]; omega

theorem accLcaEntry_eq_genesis (c : List Nat) (j : Nat) (h : j + 1 < beta) :
    accLcaEntry lca height beta genesis c j = genesis := by
  cases j with
  | zero => simp [accLcaEntry, show 1 < beta by omega]
  | succ j => simp [accLcaEntry, show j + 2 < beta by omega]

theorem accLcaEntry_zero_of_le (c : List Nat) (h : beta ≤ 1) :
    accLcaEntry lca height beta genesis c 0 =
      higherLca height genesis (windowLca lca beta c 0) := by
  simp [accLcaEntry, show ¬ 1 < beta by omega]

theorem accLcaEntry_succ_of_le (c : List Nat) (j : Nat) (h : beta ≤ j + 2) :
    accLcaEntry lca height beta genesis c (j + 1) =
      higherLca height (accLcaEntry lca height beta genesis c j) (windowLca lca beta c (j + 1)) := by
  simp [accLcaEntry, show ¬ j + 2 < beta by omega]

theorem getLast?_accLcaSpec (c : List Nat) :
    (accLcaSpec lca height beta genesis c).getLast? =
      if c.length - beta = 0 then none
      else some (accLcaEntry lca height beta genesis c (c.length - beta - 1)) := by
  unfold accLcaSpec
  split
  · rename_i h; simp [h]
  · rename_i h
    obtain ⟨k, hk⟩ : ∃ k, c.length - beta = k + 1 := ⟨c.length - beta - 1, by omega⟩
    rw [hk, List.range_succ, List.map_append, List.getLast?_append]
    simp

theorem getIdx_of_lt (c : List Nat) (i : Nat) (h : i < c.length) : getIdx c i = .ok (c.getD i 0) := by
  simp [getIdx, List.getD_eq_getElem?_getD, h]

/-- The entry `update_timer_chain` pushes once the window ending at `j` lies in the chain. -/
theorem pushAccLca_window (tc : List Nat) (me j : Nat) (hβ : 1 ≤ beta) (hlen : tc.length = j + beta)
    (hj : beta ≤ j + 1) :
    pushAccLca lca height beta genesis (tc ++ [me]) (accLcaSpec lca height beta genesis tc) =
      .ok (accLcaSpec lca height beta genesis tc ++
        [higherLca height ((accLcaSpec lca height beta genesis tc).getLast?.getD genesis)
          (windowLca lca beta (tc ++ [me]) j)]) := by
  have hL : (tc ++ [me]).length = j + beta + 1 := by simp [hlen]
  have hstart := getIdx_of_lt (tc ++ [me]) j (by omega)
  have hbs := mapM_getIdx_range' (tc ++ [me]) (j + 1 - beta) (beta - 1) (by omega)
  have hspec : (accLcaSpec lca height beta genesis tc).length = j := by simp [accLcaSpec, hlen]
  unfold pushAccLca
  simp only [hL, show 2 * beta ≤ j + beta + 1 by omega, if_true,
    show j + beta + 1 - beta = j + 1 by omega, show j + 1 - 1 = j by omega, hstart,
    Except.ok_bind, show j + beta + 1 - 2 * beta = j + 1 - beta by omega,
    show j - (j + 1 - beta) = beta - 1 by omega, hbs, usizeSub,
    show beta ≤ j + beta + 1 by omega, List.length_append, hspec, List.length_singleton,
    bne_self_eq_false, Bool.false_eq_true, if_false]
  rfl

/-- **`update_timer_chain`'s push keeps the recurrence.** -/
theorem pushAccLca_spec (tc : List Nat) (me : Nat) (hβ : 1 ≤ beta) :
    pushAccLca lca height beta genesis (tc ++ [me]) (accLcaSpec lca height beta genesis tc) =
      .ok (accLcaSpec lca height beta genesis (tc ++ [me])) := by
  rw [accLcaSpec_push]
  by_cases h2 : 2 * beta ≤ tc.length + 1
  · -- The window ending at `j = tc.len() - beta` lies in the chain.
    obtain ⟨j, hj⟩ : ∃ j, tc.length = j + beta := ⟨tc.length - beta, by omega⟩
    rw [pushAccLca_window lca height beta genesis tc me j hβ hj (by omega), getLast?_accLcaSpec,
      if_pos (show beta < tc.length + 1 by omega), show tc.length - beta = j by omega]
    cases j with
    | zero => simp [accLcaEntry_zero_of_le lca height beta genesis _ (show beta ≤ 1 by omega)]
    | succ j =>
      rw [accLcaEntry_succ_of_le lca height beta genesis _ j (by omega),
        accLcaEntry_append lca height beta genesis tc [me] j (by omega)]
      simp
  · unfold pushAccLca
    by_cases h1 : beta < tc.length + 1
    · -- A window that reaches below the chain: the entry is the genesis.
      have hg := accLcaEntry_eq_genesis lca height beta genesis (tc ++ [me]) (tc.length - beta)
        (by omega)
      simp [h2, h1, hg]
    · simp [h2, h1]

theorem resize_length_self (v : List Nat) (x : Nat) : resize v v.length x = v := by
  simp [resize]

/-- When the chain just grows (the fork is at its end and `tmp_chain` is empty), neither
    loop of `compute_timer_chain_tuple` produces an entry. -/
theorem computeTimerChainLca_extend (tc acc : List Nat) :
    computeTimerChainLca lca height beta genesis tc acc tc.length [] = .ok [] := by
  simp [computeTimerChainLca, firstLoopLca, secondLoopLca, usizeSub]

/-- **Growing the chain by one valid timer block keeps the recurrence.** From a state whose
    list is `accLcaSpec` of its chain, `update_timer_chain` on a block that extends the
    chain leaves the list `accLcaSpec` of the longer chain. -/
theorem updateTimerChain_extend_spec (tc : List Nat) (me : Nat) (hβ : 1 ≤ beta) :
    updateTimerChain lca height beta genesis ⟨tc, accLcaSpec lca height beta genesis tc⟩
        tc.length [] me true =
      .ok ⟨tc ++ [me], accLcaSpec lca height beta genesis (tc ++ [me])⟩ := by
  have hlen : (accLcaSpec lca height beta genesis tc).length =
      (if tc.length > beta then tc.length - beta else 0) := by
    simp only [accLcaSpec, List.length_map, List.length_range]
    split <;> omega
  unfold updateTimerChain
  simp only [computeTimerChainLca_extend, Except.ok_bind, List.length_nil, Nat.add_zero,
    resize_length_self, ← hlen, List.take_length, List.append_nil, usizeSub, Nat.zero_le,
    if_true, Nat.sub_zero]
  rw [pushAccLca_spec lca height beta genesis tc me hβ]
  rfl

/-! ## An example arena

The first loop of `compute_timer_chain_tuple` writes the genesis for the entry of index `end`
when `end < beta`, where the recurrence (and the push path above) writes it only below
`beta - 1`. The loop runs only when the new fork, without the new block, is longer than the
suffix it replaces. While every timer block weighs the same difficulty, such a fork would have
been adopted when its last block arrived, so whether a run reaches that entry depends on
difficulties that differ across forks, which this module does not model. In the arena below
(era genesis `0`), timer blocks `1 ← 2 ← 3` form one chain and `4 ← 5 ← 6` fork off `2`. -/

/-- Parents in the example arena. -/
def forkExampleParent : Nat → Nat
  | 1 => 0 | 2 => 1 | 3 => 2 | 4 => 2 | 5 => 4 | 6 => 5 | _ => NULL

/-- Heights in the example arena. -/
def forkExampleHeight : Nat → Nat
  | 1 => 1 | 2 => 2 | 3 => 3 | 4 => 3 | 5 => 4 | 6 => 5 | _ => 0

/-- A block and its ancestors, nearest first. -/
def forkExampleAncestors : Nat → Nat → List Nat
  | 0, _ => []
  | fuel + 1, b => if b == NULL then [] else b :: forkExampleAncestors fuel (forkExampleParent b)

/-- The LCA in the example arena. -/
def forkExampleLca (a b : Nat) : Nat :=
  ((forkExampleAncestors 8 a).find? fun x => (forkExampleAncestors 8 b).contains x).getD NULL

/-- `updateTimerChain_extend_spec` on the example arena, with `beta = 2`. -/
theorem updateTimerChain_extend_spec_two :
    1 ≤ 2 ∧ updateTimerChain forkExampleLca forkExampleHeight 2 0
        ⟨[1, 2, 4, 5], accLcaSpec forkExampleLca forkExampleHeight 2 0 [1, 2, 4, 5]⟩ 4 [] 6 true =
      .ok ⟨[1, 2, 4, 5] ++ [6], accLcaSpec forkExampleLca forkExampleHeight 2 0 ([1, 2, 4, 5] ++ [6])⟩ :=
  ⟨by decide, updateTimerChain_extend_spec forkExampleLca forkExampleHeight 2 0 [1, 2, 4, 5] 6
    (by decide)⟩

end

end Mazze.Consensus
