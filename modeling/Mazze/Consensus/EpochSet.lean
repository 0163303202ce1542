import Mazze.Lib.Bfs
import Mazze.Lib.TopoSort
import Mazze.Lib.Except
import Mazze.Consensus.Arena

/-!
# `compute_blockset_in_own_view_of_epoch`: the epoch set of a main-chain block

`consensus_inner/mod.rs` L862-L1022 computes the epoch set of a block `main`: the blocks
of its past that are not in its parent's past. The set is built incrementally
(`compute_blockset_in_own_view_of_epoch_impl`). It starts from the cached past set of
`lca`, the LCA of the current main tip and `main`'s parent. It then walks the parental
path from `lca` up to `main`. Each ancestor either adds its stored epoch set to `visited`,
or, when that set was cleared, a breadth-first search from its referees that stops at the
past set and at `visited`. `main` is always searched, and its search yields the epoch
set. When the past set of `lca` is not cached, `compute_pastset_brutal` (L1500-L1547)
builds it the same way, from the nearest cached ancestor. The set is then split by era,
and the same-era part is topologically sorted by hash. The last
`EPOCH_EXECUTED_BLOCK_BOUND` blocks, `main` included, are kept for execution, and the
rest are recorded as skipped.

The loops here are the library's: `Bfs.search` for the searches and
`TopoSort.topologicalSort` for the sort. The two parent walks are written out with a
bound on their turns. Every loop gets the same `fuel`, and the model answers `outOfFuel`
when it is spent. `lca` is `ConsensusGraphInner::lca` on the weight tree, a parameter
here.
-/

set_option autoImplicit false

namespace Mazze.Consensus

open Arena

/-- The model's answer when the bound on loop turns is spent; not a message of the source. -/
def outOfFuel : String := "out of fuel"

/-- A loop run on fuel, as a computation that may fail. -/
def ofFuel {α : Type} : Option α → Except String α
  | some a => .ok a
  | none => .error outOfFuel

/-- `Option::unwrap`. -/
def unwrap {α : Type} : Option α → Except String α
  | some a => .ok a
  | none => .error "called `Option::unwrap()` on a `None` value"

namespace ConsensusGraphInner

/-- Write the data of block `i`. -/
def modifyData (s : ConsensusGraphInner) (i : Nat)
    (f : ConsensusGraphNodeData → ConsensusGraphNodeData) : ConsensusGraphInner :=
  { s with arena := s.arena.modifyData i f }

@[simp] theorem modifyData_arena (s : ConsensusGraphInner) (i : Nat) (f) :
    (s.modifyData i f).arena = s.arena.modifyData i f := rfl

@[simp] theorem modifyData_mainChain (s : ConsensusGraphInner) (i : Nat) (f) :
    (s.modifyData i f).mainChain = s.mainChain := rfl

@[simp] theorem modifyData_pastsetCache (s : ConsensusGraphInner) (i : Nat) (f) :
    (s.modifyData i f).pastsetCache = s.pastsetCache := rfl

/-- `is_same_era`. -/
def isSameEra (s : ConsensusGraphInner) (me main : Nat) : Bool :=
  (s.arena.node me).eraBlock == (s.arena.node main).eraBlock

/-! ## 1. The model -/

/-- `path_to_lca` before its reverse (L880-L884): the blocks from `cur` down the parents,
    up to but not including `lca`. -/
def pathToLca (a : Arena) (lca : Nat) : Nat → Nat → Option (List Nat)
  | 0, _ => none
  | fuel + 1, cur =>
    if cur = lca then some [] else (pathToLca a lca fuel (a.node cur).parent).map (cur :: ·)

/-- One turn of the loop over `path_to_lca` (L887-L934). The ancestor is marked visited.
    It is then searched from its referees, stopping at `pastset` and at `visited`, when it
    is `main` or its epoch set was cleared; otherwise its stored epoch set is marked
    visited. The blocks popped by `main`'s search are pushed to `main`'s epoch set. -/
def visitAncestor (fuel : Nat) (a : Arena) (pastset : Finset Nat) (main : Nat)
    (acc : Finset Nat × List Nat) (ancestorArenaIndex : Nat) : Option (Finset Nat × List Nat) :=
  let visited := insert ancestorArenaIndex acc.1
  if ancestorArenaIndex = main ∨ (a.node ancestorArenaIndex).data.blocksetCleared = true then
    let stop := fun i => decide (i ∈ pastset)
    let start := Bfs.offerAll stop (visited, []) (a.node ancestorArenaIndex).referees
    (Bfs.search a.parentAndReferees stop fuel ⟨start.2, start.1, []⟩).map fun r =>
      (r.1, if ancestorArenaIndex = main then acc.2 ++ r.2 else acc.2)
  else
    some ((a.node ancestorArenaIndex).data.blocksetInOwnViewOfEpoch.foldl
      (fun v i => insert i v) visited, acc.2)

/-- `compute_blockset_in_own_view_of_epoch_impl(lca, main)` (L876-L935). -/
def computeBlocksetInOwnViewOfEpochImpl (fuel : Nat) (s : ConsensusGraphInner)
    (lca main : Nat) : Except String ConsensusGraphInner := do
  let pastset ← unwrap (s.pastsetCache.get lca)
  let path ← ofFuel (pathToLca s.arena lca fuel main)
  let visitedAndPushed ← ofFuel (path.reverse.foldlM (visitAncestor fuel s.arena pastset main)
    (∅, []))
  pure (s.modifyData main fun d =>
    { d with blocksetInOwnViewOfEpoch := d.blocksetInOwnViewOfEpoch ++ visitedAndPushed.2 })

/-- The first loop of `compute_pastset_brutal` (L1501-L1507): the blocks from `cur` down the
    parents before the first one that is `NULL` or has a cached past set, and that one. -/
def pathToCached (a : Arena) (cache : PastSetCache) : Nat → Nat → Option (List Nat × Nat)
  | 0, _ => none
  | fuel + 1, cur =>
    if cur ≠ NULL ∧ cache.get cur = none then
      (pathToCached a cache fuel (a.node cur).parent).map fun r => (cur :: r.1, r.2)
    else some ([], cur)

/-- One turn of the second loop of `compute_pastset_brutal` (L1513-L1545). The ancestor
    joins the result. When its epoch set was cleared, it is searched from itself, stopping at
    the result. Otherwise its stored epoch set joins the result: that set is taken out by
    `exchange_or_compute_blockset_in_own_view_of_epoch(_, None)`, which computes nothing
    for a set that is not cleared, and the second call puts it back. -/
def addAncestorPast (fuel : Nat) (a : Arena) (result : Finset Nat) (ancestorArenaIndex : Nat) :
    Option (Finset Nat) :=
  let result := insert ancestorArenaIndex result
  if (a.node ancestorArenaIndex).data.blocksetCleared = true then
    (Bfs.search a.parentAndReferees (fun _ => false) fuel
      ⟨[ancestorArenaIndex], result, []⟩).map (·.1)
  else
    some ((a.node ancestorArenaIndex).data.blocksetInOwnViewOfEpoch.foldl
      (fun r i => insert i r) result)

/-- `compute_pastset_brutal(me)` (L1500-L1547). -/
def computePastsetBrutal (fuel : Nat) (s : ConsensusGraphInner) (me : Nat) :
    Option (Finset Nat) := do
  let pathAndCached ← pathToCached s.arena s.pastsetCache fuel me
  pathAndCached.1.reverse.foldlM (addAncestorPast fuel s.arena)
    ((s.pastsetCache.get pathAndCached.2).getD ∅)

/-- L955-L959: the past set of `lca`, from the cache (renewing its stamp), or computed by
    `compute_pastset_brutal` and cached. -/
def cachePastset (fuel : Nat) (s : ConsensusGraphInner) (lca : Nat) :
    Except String ConsensusGraphInner :=
  match s.pastsetCache.getAndUpdateCache lca with
  | (cache, some _) => pure { s with pastsetCache := cache }
  | (cache, none) => do
    let s := { s with pastsetCache := cache }
    let pastset ← ofFuel (computePastsetBrutal fuel s lca)
    let cache ← s.pastsetCache.update lca pastset
    pure { s with pastsetCache := cache }

/-- L962-L1001: the epoch set split by era, the same-era part sorted with the hash as order
    indicator, and `main` appended; the last `EPOCH_EXECUTED_BLOCK_BOUND` blocks are kept for
    execution and the hashes of the others, then of the other-era blocks, are skipped. The
    same-era part is a `HashSet`. -/
def orderEpochBlocks (fuel : Nat) (s : ConsensusGraphInner) (main : Nat) :
    Except String ConsensusGraphInner := do
  let blockset := (s.arena.node main).data.blocksetInOwnViewOfEpoch
  let filteredBlockset := (blockset.filter fun idx => s.isSameEra idx main).dedup
  let differentEraBlocks := blockset.filter fun idx => !s.isSameEra idx main
  let sorted ← ofFuel (TopoSort.topologicalSort fuel filteredBlockset s.arena.predecessorEdges
    fun i => (s.arena.node i).hash)
  let ordered := sorted ++ [main]
  let orderedAndSkipped := if ordered.length > epochExecutedBlockBound then
      let cutOff := ordered.length - epochExecutedBlockBound
      (ordered.drop cutOff, ordered.take cutOff ++ differentEraBlocks)
    else (ordered, differentEraBlocks)
  pure (s.modifyData main fun d =>
    { d with
      skippedEpochBlocks := orderedAndSkipped.2.map fun i => (s.arena.node i).hash
      orderedExecutableEpochBlocks := orderedAndSkipped.1
      blocksetCleared := false })

section Lca

variable (lca : Nat → Nat → Nat)

/-- `compute_blockset_in_own_view_of_epoch(main)` (L946-L1002). -/
def computeBlocksetInOwnViewOfEpoch (fuel : Nat) (s : ConsensusGraphInner) (main : Nat) :
    Except String ConsensusGraphInner :=
  if (s.arena.node main).data.blocksetCleared = false then pure s
  else do
    let parent := (s.arena.node main).parent
    let s ← if parent = NULL then pure s else do
      let last ← unwrap s.mainChain.getLast?
      let lcaIndex := lca last parent
      if lcaIndex = NULL then throw "assertion failed: lca != NULL"
      else do
        let s ← cachePastset fuel s lcaIndex
        computeBlocksetInOwnViewOfEpochImpl fuel s lcaIndex main
    orderEpochBlocks fuel s main

/-- A set that is not cleared is not computed again. -/
theorem computeBlocksetInOwnViewOfEpoch_of_not_cleared (fuel : Nat) (s : ConsensusGraphInner)
    {main : Nat} (h : (s.arena.node main).data.blocksetCleared = false) :
    computeBlocksetInOwnViewOfEpoch lca fuel s main = .ok s := by
  simp [computeBlocksetInOwnViewOfEpoch, h]

/-- `exchange_or_compute_blockset_in_own_view_of_epoch(index, blockset_opt)` (L1004-L1022):
    with `Some(blockset)`, store it and return what was there; with `None`, compute the set
    if it is cleared, then take it out, leaving it empty. -/
def exchangeOrComputeBlocksetInOwnViewOfEpoch (fuel : Nat) (s : ConsensusGraphInner)
    (index : Nat) (blocksetOpt : Option (List Nat)) :
    Except String (ConsensusGraphInner × List Nat) :=
  match blocksetOpt with
  | some blockset =>
    pure (s.modifyData index fun d => { d with blocksetInOwnViewOfEpoch := blockset },
      (s.arena.node index).data.blocksetInOwnViewOfEpoch)
  | none => do
    let s ← if (s.arena.node index).data.blocksetCleared = true then
        computeBlocksetInOwnViewOfEpoch lca fuel s index
      else pure s
    pure (s.modifyData index fun d => { d with blocksetInOwnViewOfEpoch := [] },
      (s.arena.node index).data.blocksetInOwnViewOfEpoch)

end Lca

/-- `try_clear_blockset_in_own_view_of_epoch(me)` (`consensus_new_block_handler.rs`
    L908-L919): drop a set above `BLOCKSET_IN_OWN_VIEW_OF_EPOCH_CAP`. -/
def tryClearBlocksetInOwnViewOfEpoch (s : ConsensusGraphInner) (me : Nat) :
    ConsensusGraphInner :=
  if (s.arena.node me).data.blocksetInOwnViewOfEpoch.length > blocksetInOwnViewOfEpochCap then
    s.modifyData me fun d =>
      { d with blocksetInOwnViewOfEpoch := [], skippedEpochBlocks := [], blocksetCleared := true }
  else s

/-- The arena part of `insert` (L1731-L1806): a new node at the slab's free key `index`,
    its epoch set not yet computed. -/
def insertNode (s : ConsensusGraphInner) (index hash parent eraBlock : Nat)
    (referees : List Nat) : ConsensusGraphInner :=
  { s with arena := ⟨insert index s.arena.keys,
    Function.update s.arena.node index ⟨hash, parent, eraBlock, referees, .new⟩⟩ }

@[simp] theorem insertNode_keys (s : ConsensusGraphInner) (index hash parent eraBlock : Nat)
    (referees : List Nat) :
    (s.insertNode index hash parent eraBlock referees).arena.keys = insert index s.arena.keys :=
  rfl

theorem insertNode_node (s : ConsensusGraphInner) (index hash parent eraBlock : Nat)
    (referees : List Nat) (x : Nat) :
    (s.insertNode index hash parent eraBlock referees).arena.node x =
      if x = index then ⟨hash, parent, eraBlock, referees, .new⟩ else s.arena.node x :=
  Function.update_apply _ _ _ _

@[simp] theorem insertNode_mainChain (s : ConsensusGraphInner) (index hash parent eraBlock : Nat)
    (referees : List Nat) :
    (s.insertNode index hash parent eraBlock referees).mainChain = s.mainChain := rfl

@[simp] theorem insertNode_pastsetCache (s : ConsensusGraphInner)
    (index hash parent eraBlock : Nat) (referees : List Nat) :
    (s.insertNode index hash parent eraBlock referees).pastsetCache = s.pastsetCache := rfl

end ConsensusGraphInner

end Mazze.Consensus
