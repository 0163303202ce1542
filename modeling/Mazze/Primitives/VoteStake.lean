import Mathlib
import Mazze.Lib.BinarySearch
import Mazze.Lib.Checked

/-!
# `VoteStakeList`

`primitives/src/account.rs`. An account's vote locks are kept as a list of
`(amount, unlock_block_number)` entries, sorted by the unlock block, with the amounts falling
along it: an entry is only worth keeping while no later-unlocking entry locks as much. The
amount locked at a block is then the amount of the first entry that unlocks after it, which
`withdrawable_staking_balance` finds by binary search. `vote_lock` writes a new lock at its
place, by update or insertion, and pops the earlier entries it dominates;
`remove_expired_vote_stake_info` drops the entries that have unlocked.

`U256` amounts and block numbers are natural numbers; `block_number + 1` of a `u64` never
overflows as a `U256`. Indexing out of range, `rest[0]` of an empty `rest` and a `-` that
underflows panic, and return `none` here. `Vec::split_off(at)` keeps the first `at` entries and
returns the others; `binary_search_by` is `BinarySearch.binarySearchBy`.
-/

set_option autoImplicit false

namespace Mazze.Primitives

/-- `VoteStakeInfo`. -/
structure VoteStakeInfo where
  amount : Nat
  unlockBlockNumber : Nat
  deriving DecidableEq, Repr

/-- `binary_search_by(|vote_info| vote_info.unlock_block_number.cmp(&key))`. -/
def searchUnlock (l : List VoteStakeInfo) (key : Nat) : Except Nat Nat :=
  BinarySearch.binarySearchBy l fun v => compare v.unlockBlockNumber key

/-- `VoteStakeList::withdrawable_staking_balance`. -/
def withdrawableStakingBalance (l : List VoteStakeInfo) (stakingBalance blockNumber : Nat) :
    Option Nat :=
  if l ≠ [] then
    -- the first entry that unlocks after `blockNumber`
    let idx := BinarySearch.Except.index (searchUnlock l (blockNumber + 1))
    if idx = l.length then some stakingBalance
    else (l[idx]?).bind fun v => Checked.sub stakingBalance v.amount
  else some stakingBalance

/-- `VoteStakeList::remove_expired_vote_stake_info`. -/
def removeExpiredVoteStakeInfo (l : List VoteStakeInfo) (blockNumber : Nat) :
    List VoteStakeInfo :=
  match l with
  | [] => []
  | v :: _ =>
    if v.unlockBlockNumber ≤ blockNumber then
      l.drop (BinarySearch.Except.index (searchUnlock l (blockNumber + 1)))
    else l

/-- The write of `vote_lock`: `some (list, updated_index)` when the lock was written by an
    update at an entry of the same unlock block, or by an insertion; `none` when an entry at its
    place already locks as much. -/
def voteLockWrite (l : List VoteStakeInfo) (amount unlockBlockNumber : Nat) :
    Option (Option (List VoteStakeInfo × Nat)) :=
  match searchUnlock l unlockBlockNumber with
  | .ok index =>
    (l[index]?).map fun v =>
      if v.amount < amount then some (l.set index { v with amount := amount }, index) else none
  | .error index =>
    let inserted := (l.insertIdx index ⟨amount, unlockBlockNumber⟩, index)
    if l.length ≤ index then some (some inserted)
    else (l[index]?).map fun v => if v.amount < amount then some inserted else none

/-- The loop of `vote_lock` that pops from `kept` the entries locking no more than `rest[0]`;
    `rest[0]` is read only while `kept` is not empty. -/
def popDominated (kept rest : List VoteStakeInfo) : Option (List VoteStakeInfo) :=
  match rest with
  | [] => if kept = [] then some [] else none
  | r :: _ => some (kept.rdropWhile fun v => v.amount ≤ r.amount)

/-- `VoteStakeList::vote_lock`. -/
def voteLock (l : List VoteStakeInfo) (amount unlockBlockNumber : Nat) :
    Option (List VoteStakeInfo) := do
  match ← voteLockWrite l amount unlockBlockNumber with
  | none => pure l
  | some (l, updatedIndex) =>
    let rest := l.drop updatedIndex
    let kept ← popDominated (l.take updatedIndex) rest
    pure (kept ++ rest)

/-- The calls that change a `VoteStakeList`, as `OverlayAccount` makes them. -/
inductive VoteOp where
  | voteLock (amount unlockBlockNumber : Nat)
  | removeExpired (blockNumber : Nat)
  deriving DecidableEq, Repr

/-- One call on the list. -/
def VoteOp.apply : VoteOp → List VoteStakeInfo → Option (List VoteStakeInfo)
  | .voteLock amount unlockBlockNumber, l => Primitives.voteLock l amount unlockBlockNumber
  | .removeExpired blockNumber, l => some (removeExpiredVoteStakeInfo l blockNumber)

/-- A sequence of calls, in order; `none` when one of them panics. -/
def runOps : List VoteOp → List VoteStakeInfo → Option (List VoteStakeInfo)
  | [], l => some l
  | op :: ops, l => (op.apply l).bind (runOps ops)

end Mazze.Primitives
