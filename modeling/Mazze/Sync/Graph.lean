import Mathlib
import Mazze.Lib.Loop
import Mazze.Lib.Except

/-!
# The synchronization graph and the two calls that feed consensus

`sync/synchronization_graph.rs` keeps every block it has heard of in a `Slab` arena of
`SynchronizationGraphNode`s. It links each node to its parent, children, referees and
referrers by arena index. A block whose parent or referee has not arrived waits under that
hash in `children_by_hash` or `referrers_by_hash`. A node's `graph_status` climbs the lattice
`BLOCK_INVALID < BLOCK_HEADER_ONLY < BLOCK_HEADER_GRAPH_READY < BLOCK_GRAPH_READY`.
Readiness spreads breadth-first from each inserted node, in
`propagate_header_graph_status` for headers and `propagate_graph_status` for bodies. The
latter sends each block that becomes `BLOCK_GRAPH_READY` to consensus on `new_block_hashes`.
Invalidity spreads in the same queue, and the invalid blocks are then removed.

This module models `insert_block_header` (L1502-L1647) and `insert_block` (L1760-L1884),
with everything they call. What the model leaves out:

* The block data manager is its `local_block_info` table, its instance id and the current
  era genesis. The header and body stores only serve the checks below.
* The checks whose insides are not graph logic are verdicts of a `Verifier`. They are
  `verify_header_params`, `verify_header_graph_ready_block`,
  `verify_sync_graph_block_basic` and `verify_sync_graph_ready_block`.
* The PoS verifier is its `get_main_decision`.
* Fields that the modelled functions only write are left out. These are the two
  not-ready frontiers, `pending_referee_count`, `block_to_fill_set`, the timestamps and the
  statistics.

The arena is a function on indices together with its occupied keys. The index a `Slab`
hands out is an argument of the insertion. A `HashSet` is a list without repeats, iterated
in insertion order. A `HashMap` of vectors reads `[]` at an absent key; the source never
keeps an empty vector under a key. Loops run on fuel and answer `outOfFuel` when it is
spent. An `assert!` that fails, or an `unwrap` of `None`, is an `Except` error carrying
Rust's panic message.
-/

set_option autoImplicit false

namespace Mazze.Sync

open Loop

/-- `NULL = !0`, on a 64-bit `usize`. -/
def NULL : Nat := 2 ^ 64 - 1

/-- `NULLU64 = !0`: the sequence number and instance id of an invalidated block. -/
def NULLU64 : Nat := 2 ^ 64 - 1

/-- The model's answer when the bound on loop turns is spent; not a message of the source. -/
def outOfFuel : String := "out of fuel"

/-- A loop run on fuel, as a computation that may fail. -/
def ofFuel {α : Type} : Option α → Except String α
  | some a => .ok a
  | none => .error outOfFuel

/-- `Option::unwrap`. -/
def unwrap {α : Type} : Option α → Except String α
  | some a => .ok a
  | none => .error "called `Option::unwrap()` on a `None` value"

/-! ## 1. Blocks, nodes and the data manager -/

/-- The `u8` constants `BLOCK_INVALID = 0`, `BLOCK_HEADER_ONLY = 1`,
    `BLOCK_HEADER_GRAPH_READY = 2` and `BLOCK_GRAPH_READY = 3`, compared as numbers. -/
inductive GraphStatus where
  | blockInvalid
  | blockHeaderOnly
  | blockHeaderGraphReady
  | blockGraphReady
  deriving DecidableEq, Repr

namespace GraphStatus

/-- The `u8` each constant stands for. -/
def toNat : GraphStatus → Nat
  | blockInvalid => 0
  | blockHeaderOnly => 1
  | blockHeaderGraphReady => 2
  | blockGraphReady => 3

instance : LE GraphStatus := ⟨fun a b => a.toNat ≤ b.toNat⟩
instance : LT GraphStatus := ⟨fun a b => a.toNat < b.toNat⟩

instance (a b : GraphStatus) : Decidable (a ≤ b) := inferInstanceAs (Decidable (a.toNat ≤ b.toNat))
instance (a b : GraphStatus) : Decidable (a < b) := inferInstanceAs (Decidable (a.toNat < b.toNat))

end GraphStatus

/-- The fields of `BlockHeader` the graph reads: the block's hash, its parent's, its
    referees', and the PoS block it refers to. -/
structure BlockHeader where
  hash : Nat
  parentHash : Nat
  refereeHashes : List Nat
  posReference : Option Nat
  deriving DecidableEq, Repr

/-- A block: its header and its transactions. -/
structure Block where
  blockHeader : BlockHeader
  transactions : List Nat
  deriving DecidableEq, Repr

/-- `SynchronizationGraphNode`, without `pending_referee_count` and the timestamp. -/
structure SynchronizationGraphNode where
  blockHeader : BlockHeader
  graphStatus : GraphStatus
  blockReady : Bool
  parentReclaimed : Bool
  parent : Nat
  children : List Nat
  referees : List Nat
  referrers : List Nat
  deriving DecidableEq, Repr

/-- What a vacant slot reads as. -/
def SynchronizationGraphNode.vacant : SynchronizationGraphNode :=
  ⟨⟨0, 0, [], none⟩, .blockInvalid, false, false, NULL, [], [], []⟩

/-- `BlockStatus`, as `local_block_info` records it. -/
inductive BlockStatus where
  | valid
  | invalid
  | partialInvalid
  | pending
  deriving DecidableEq, Repr

/-- `LocalBlockInfo`. -/
structure LocalBlockInfo where
  status : BlockStatus
  seqNum : Nat
  instanceId : Nat
  deriving DecidableEq, Repr

/-- The parts of `BlockDataManager` the graph reads. -/
structure BlockDataManager where
  localBlockInfo : Nat → Option LocalBlockInfo
  instanceId : Nat
  curConsensusEraGenesisHash : Nat

namespace BlockDataManager

/-- `invalidate_block`: the block will never enter consensus. -/
def invalidateBlock (dm : BlockDataManager) (blockHash : Nat) : BlockDataManager :=
  { dm with localBlockInfo :=
      Function.update dm.localBlockInfo blockHash (some ⟨.invalid, NULLU64, NULLU64⟩) }

/-- `verified_invalid`. The source first looks in `invalid_block_set`, a cache of the
    `Invalid` entries of the table; the table alone answers the same. -/
def verifiedInvalid (dm : BlockDataManager) (blockHash : Nat) : Bool × Option LocalBlockInfo :=
  match dm.localBlockInfo blockHash with
  | some info => (info.status == .invalid, some info)
  | none => (false, none)

end BlockDataManager

/-- `PosVerifier::get_main_decision`: the PoW block a committed PoS block decides. -/
structure PosVerifier where
  getMainDecision : Nat → Option Nat

/-- The fields of `SynchronizationGraphInner` the two calls read. -/
structure SynchronizationGraphInner where
  keys : Finset Nat
  arena : Nat → SynchronizationGraphNode
  hashToArenaIndices : Nat → Option Nat
  dataMan : BlockDataManager
  childrenByHash : Nat → List Nat
  referrersByHash : Nat → List Nat
  oldEraBlocksFrontier : List Nat
  oldEraBlocksFrontierSet : Finset Nat
  lockedForCatchup : Bool
  posVerifier : PosVerifier

/-- The error of `verify_sync_graph_block_basic` that asks for the body again. -/
inductive BlockError where
  | invalidTransactionsRoot
  | other
  deriving DecidableEq, Repr

/-- The verdicts of the checks the model does not open. `verify_header_graph_ready_block`
    and `verify_sync_graph_ready_block` read the parent's and the referees' headers and the
    stored body. Headers and bodies are fixed by the block's hash and transaction root, so
    their verdicts are functions of the header. -/
structure Verifier where
  verifyHeaderParams : BlockHeader → Bool
  verifyHeaderGraphReadyBlock : BlockHeader → Bool
  verifySyncGraphBlockBasic : Block → Except BlockError Unit
  verifySyncGraphReadyBlock : BlockHeader → Bool

/-- `SynchronizationGraph`: the inner graph, the checks, `is_consortium`, and everything
    sent on `new_block_hashes` so far. -/
structure SynchronizationGraph where
  inner : SynchronizationGraphInner
  verificationConfig : Verifier
  isConsortium : Bool
  newBlockHashes : List Nat

/-- `BlockHeaderInsertionResult`. -/
inductive BlockHeaderInsertionResult where
  | alreadyProcessedInConsensus
  | alreadyProcessedInSync
  | newValid
  | invalid
  | temporarySkipped
  deriving DecidableEq, Repr

/-- `BlockInsertionResult`. -/
inductive BlockInsertionResult where
  | alreadyProcessed
  | shouldRelay
  | successWithoutRelay
  | invalid
  | requestAgain
  | ignored
  deriving DecidableEq, Repr

/-! ## 2. Writes to the arena -/

namespace SynchronizationGraphInner

variable (s : SynchronizationGraphInner)

/-- Write the node at `i`. -/
def modifyNode (i : Nat) (f : SynchronizationGraphNode → SynchronizationGraphNode) :
    SynchronizationGraphInner :=
  { s with arena := Function.update s.arena i (f (s.arena i)) }

/-- `arena[i].graph_status = status`. -/
def setGraphStatus (i : Nat) (status : GraphStatus) : SynchronizationGraphInner :=
  s.modifyNode i fun n => { n with graphStatus := status }

/-- `arena[i].block_ready = b`. -/
def setBlockReady (i : Nat) (b : Bool) : SynchronizationGraphInner :=
  s.modifyNode i fun n => { n with blockReady := b }

/-- `arena[i].parent_reclaimed = true`. -/
def setParentReclaimed (i : Nat) : SynchronizationGraphInner :=
  s.modifyNode i fun n => { n with parentReclaimed := true }

/-- `arena[i].parent = p`. -/
def setParent (i p : Nat) : SynchronizationGraphInner :=
  s.modifyNode i fun n => { n with parent := p }

/-- Rewrite `arena[i].children`. -/
def modifyChildren (i : Nat) (f : List Nat → List Nat) : SynchronizationGraphInner :=
  s.modifyNode i fun n => { n with children := f n.children }

/-- Rewrite `arena[i].referees`. -/
def modifyReferees (i : Nat) (f : List Nat → List Nat) : SynchronizationGraphInner :=
  s.modifyNode i fun n => { n with referees := f n.referees }

/-- Rewrite `arena[i].referrers`. -/
def modifyReferrers (i : Nat) (f : List Nat → List Nat) : SynchronizationGraphInner :=
  s.modifyNode i fun n => { n with referrers := f n.referrers }

/-- Rewrite the list `children_by_hash` keeps under `h`. -/
def modifyChildrenByHash (h : Nat) (f : List Nat → List Nat) : SynchronizationGraphInner :=
  { s with childrenByHash := Function.update s.childrenByHash h (f (s.childrenByHash h)) }

/-- Rewrite the list `referrers_by_hash` keeps under `h`. -/
def modifyReferrersByHash (h : Nat) (f : List Nat → List Nat) : SynchronizationGraphInner :=
  { s with referrersByHash := Function.update s.referrersByHash h (f (s.referrersByHash h)) }

/-- `old_era_blocks_frontier.push_back(i)` and `old_era_blocks_frontier_set.insert(i)`. -/
def pushOldEraBlocksFrontier (i : Nat) : SynchronizationGraphInner :=
  { s with oldEraBlocksFrontier := s.oldEraBlocksFrontier ++ [i],
           oldEraBlocksFrontierSet := insert i s.oldEraBlocksFrontierSet }

/-! ## 3. Reading the data manager -/

/-- The sequence number of the era genesis; the source `expect`s it to be recorded. -/
def genesisSeqNum : Nat :=
  match s.dataMan.localBlockInfo s.dataMan.curConsensusEraGenesisHash with
  | some info => info.seqNum
  | none => 0

/-- `is_graph_ready_in_db`: not invalid, and ordered before the era genesis or already
    processed by this instance. -/
def isGraphReadyInDb (parentOrRefereeHash genesisSeqNum : Nat) : Bool :=
  match s.dataMan.localBlockInfo parentOrRefereeHash with
  | some info =>
    if info.status = .invalid then false
    else decide (info.seqNum < genesisSeqNum) || info.instanceId == s.dataMan.instanceId
  | none => false

/-! ## 4. Inserting a node -/

/-- Put `node` in the empty slot `me` and index it by its hash. -/
def insertNode (me : Nat) (node : SynchronizationGraphNode) : SynchronizationGraphInner :=
  { s with keys := insert me s.keys, arena := Function.update s.arena me node,
           hashToArenaIndices := Function.update s.hashToArenaIndices node.blockHeader.hash (some me) }

/-- The tail shared by `insert` and `insert_invalid`: the blocks that waited for `hash` as
    their parent become `me`'s children, those that waited for it as a referee its
    referrers. -/
def adoptWaiting (hash me : Nat) : SynchronizationGraphInner :=
  let s := match s.childrenByHash hash with
    | [] => s
    | children =>
      let s := s.modifyChildrenByHash hash fun _ => []
      let s := children.foldl (fun (s : SynchronizationGraphInner) child => s.setParent child me) s
      s.modifyChildren me fun _ => children
  match s.referrersByHash hash with
  | [] => s
  | referrers =>
    let s := s.modifyReferrersByHash hash fun _ => []
    let s := referrers.foldl
      (fun (s : SynchronizationGraphInner) referrer => s.modifyReferees referrer (· ++ [me])) s
    s.modifyReferrers me fun _ => referrers

/-- `insert_invalid` (L368-L407): the node is invalid, is not linked to its parent or
    referees, and adopts what waited for it. -/
def insertInvalid (header : BlockHeader) (me : Nat) : SynchronizationGraphInner :=
  (s.insertNode me ⟨header, .blockInvalid, false, false, NULL, [], [], []⟩).adoptWaiting
    header.hash me

/-- Link `me` to its parent if it is in the arena, or wait for it in `children_by_hash`. -/
def linkParent (header : BlockHeader) (me : Nat) : SynchronizationGraphInner :=
  match s.hashToArenaIndices header.parentHash with
  | some parent => (s.setParent me parent).modifyChildren parent (· ++ [me])
  | none => s.modifyChildrenByHash header.parentHash (· ++ [me])

/-- Link `me` to one referee if it is in the arena, or wait for it in `referrers_by_hash`. -/
def linkReferee (me refereeHash : Nat) : SynchronizationGraphInner :=
  match s.hashToArenaIndices refereeHash with
  | some referee => (s.modifyReferees me (· ++ [referee])).modifyReferrers referee (· ++ [me])
  | none => s.modifyReferrersByHash refereeHash (· ++ [me])

/-- `insert` (L410-L486): the era genesis is graph-ready at once; any other block is
    header-only and is linked to what is already there. -/
def insert (header : BlockHeader) (me : Nat) : SynchronizationGraphInner :=
  let isGenesis := header.hash == s.dataMan.curConsensusEraGenesisHash
  let s := s.insertNode me ⟨header, if isGenesis then .blockGraphReady else .blockHeaderOnly,
    isGenesis, false, NULL, [], [], []⟩
  let s := if isGenesis then s else s.linkParent header me
  let s := header.refereeHashes.foldl
    (fun (s : SynchronizationGraphInner) refereeHash => s.linkReferee me refereeHash) s
  s.adoptWaiting header.hash me

/-! ## 5. Readiness -/

/-- `is_pos_reference_graph_ready`: no PoS reference, or one whose decision is at least
    `minimalStatus` in memory, or graph-ready in the database. -/
def isPosReferenceGraphReady (index genesisSeqNum : Nat) (minimalStatus : GraphStatus) : Bool :=
  match (s.arena index).blockHeader.posReference with
  | none => true
  | some posReference =>
    match s.posVerifier.getMainDecision posReference with
    | none => false
    | some mainDecision =>
      match s.hashToArenaIndices mainDecision with
      | none => s.isGraphReadyInDb mainDecision genesisSeqNum
      | some i => decide ((s.arena i).graphStatus ≥ minimalStatus)

/-- `new_to_be_graph_ready` (L508-L591): a node below `minimalStatus` whose parent,
    referees and PoS decision are all at least `minimalStatus`, in memory or in the
    database. A parent found only in the database marks the node `parent_reclaimed`, and
    that write stays even when a later check fails. -/
def newToBeGraphReady (index : Nat) (minimalStatus : GraphStatus) :
    SynchronizationGraphInner × Bool :=
  if (s.arena index).graphStatus ≥ minimalStatus then (s, false) else
  let genesisSeqNum := s.genesisSeqNum
  let parent := (s.arena index).parent
  let parentGraphReady :=
    if parent = NULL then
      (s.arena index).parentReclaimed ||
        s.isGraphReadyInDb (s.arena index).blockHeader.parentHash genesisSeqNum
    else decide ((s.arena parent).graphStatus ≥ minimalStatus)
  if !parentGraphReady then (s, false) else
  let s := if parent = NULL then s.setParentReclaimed index else s
  let node := s.arena index
  if !node.referees.all (fun r => decide ((s.arena r).graphStatus ≥ minimalStatus)) then
    (s, false) else
  let refereeHashInMem := node.referees.map fun r => (s.arena r).blockHeader.hash
  if !node.blockHeader.refereeHashes.all
      (fun h => decide (h ∈ refereeHashInMem) || s.isGraphReadyInDb h genesisSeqNum) then
    (s, false) else
  (s, s.isPosReferenceGraphReady index genesisSeqNum minimalStatus)

/-- `new_to_be_header_graph_ready`. -/
def newToBeHeaderGraphReady (index : Nat) : SynchronizationGraphInner × Bool :=
  s.newToBeGraphReady index .blockHeaderGraphReady

/-- `new_to_be_block_graph_ready`: graph-ready, and the body is there. -/
def newToBeBlockGraphReady (index : Nat) : SynchronizationGraphInner × Bool :=
  let (s, ready) := s.newToBeGraphReady index .blockGraphReady
  (s, ready && (s.arena index).blockReady)

/-! ## 6. Removing nodes -/

/-- Drop `index` from the referrers of its referees, in memory and in `referrers_by_hash`. -/
def unlinkFromReferees (index : Nat) : SynchronizationGraphInner :=
  let s := (s.arena index).referees.foldl (fun (s : SynchronizationGraphInner) referee =>
    s.modifyReferrers referee (·.filter (· != index))) s
  (s.arena index).blockHeader.refereeHashes.foldl (fun (s : SynchronizationGraphInner) refereeHash =>
    s.modifyReferrersByHash refereeHash (·.filter (· != index))) s

/-- Drop `index` from the referees of its referrers. -/
def unlinkFromReferrers (index : Nat) : SynchronizationGraphInner :=
  (s.arena index).referrers.foldl (fun (s : SynchronizationGraphInner) referrer =>
    s.modifyReferees referrer (·.filter (· != index))) s

/-- One turn of `remove_blocks` (L885-L956). -/
def removeBlock (index : Nat) : SynchronizationGraphInner :=
  let hash := (s.arena index).blockHeader.hash
  let s := { s with oldEraBlocksFrontierSet := s.oldEraBlocksFrontierSet.erase index }
  let parent := (s.arena index).parent
  let s := if parent ≠ NULL then s.modifyChildren parent (·.filter (· != index)) else s
  let parentHash := (s.arena index).blockHeader.parentHash
  let s := s.modifyChildrenByHash parentHash (·.filter (· != index))
  let s := s.unlinkFromReferees index
  let s := (s.arena index).children.foldl
    (fun (s : SynchronizationGraphInner) child => s.setParent child NULL) s
  let s := s.unlinkFromReferrers index
  { s with keys := s.keys.erase index,
           hashToArenaIndices := Function.update s.hashToArenaIndices hash none }

/-- `remove_blocks`. -/
def removeBlocks (toRemoveSet : List Nat) : SynchronizationGraphInner :=
  toRemoveSet.foldl removeBlock s

/-- `process_invalid_blocks` (L875-L883): mark each block invalid in the database, then
    remove them all. -/
def processInvalidBlocks (invalidSet : List Nat) : SynchronizationGraphInner :=
  let s := invalidSet.foldl (fun (s : SynchronizationGraphInner) index =>
    { s with dataMan := s.dataMan.invalidateBlock (s.arena index).blockHeader.hash }) s
  s.removeBlocks invalidSet

/-! ## 7. `try_clear_old_era_blocks` (L267-L366) -/

/-- The body of one clearing: the node leaves the arena, and its children, now without a
    parent in memory, join the old-era frontier. -/
def reclaimBlock (index hash : Nat) : Except String SynchronizationGraphInner :=
  let s := s.unlinkFromReferees index
  (s.arena index).children.foldlM (fun (s : SynchronizationGraphInner) child =>
      if child ∈ s.oldEraBlocksFrontierSet then
        .error "assertion failed: !self.old_era_blocks_frontier_set.contains(&child)"
      else .ok ((s.setParent child NULL).setParentReclaimed child |>.pushOldEraBlocksFrontier child))
    s >>= fun s =>
  let s := s.unlinkFromReferrers index
  .ok { s with oldEraBlocksFrontierSet := s.oldEraBlocksFrontierSet.erase index,
               keys := s.keys.erase index,
               hashToArenaIndices := Function.update s.hashToArenaIndices hash none }

end SynchronizationGraphInner

/-- The state of the clearing loop. -/
structure TryClear where
  inner : SynchronizationGraphInner
  numCleared : Nat
  eraGenesisInFrontier : Bool

/-- After the loop the era genesis goes back to the front, if it was popped. -/
def TryClear.finish (t : TryClear) (eraGenesis : Nat) : SynchronizationGraphInner :=
  if t.eraGenesisInFrontier then
    { t.inner with oldEraBlocksFrontier := eraGenesis :: t.inner.oldEraBlocksFrontier }
  else t.inner

/-- One turn of the clearing loop: pop the frontier; skip the era genesis, nodes no longer
    in the set, and nodes consensus has not processed; clear the rest, at most two. -/
def tryClearStep (eraGenesis genesisSeqNum : Nat) (t : TryClear) :
    LoopStep (Except String SynchronizationGraphInner) TryClear :=
  match t.inner.oldEraBlocksFrontier with
  | [] => .done (.ok (t.finish eraGenesis))
  | index :: rest =>
    let s := { t.inner with oldEraBlocksFrontier := rest }
    if index = eraGenesis then .next { t with inner := s, eraGenesisInFrontier := true }
    else if index ∉ s.oldEraBlocksFrontierSet then .next { t with inner := s }
    else
      let hash := (s.arena index).blockHeader.hash
      if (s.arena index).parent ≠ NULL then
        .done (.error "assertion failed: self.arena[index].parent == NULL")
      else if !s.isGraphReadyInDb hash genesisSeqNum then .next { t with inner := s }
      else
        match s.reclaimBlock index hash with
        | .error e => .done (.error e)
        | .ok s =>
          let t := { t with inner := s, numCleared := t.numCleared + 1 }
          if t.numCleared = 2 then .done (.ok (t.finish eraGenesis)) else .next t

/-- `try_clear_old_era_blocks`. -/
def SynchronizationGraphInner.tryClearOldEraBlocks (s : SynchronizationGraphInner) (fuel : Nat) :
    Except String SynchronizationGraphInner :=
  unwrap (s.hashToArenaIndices s.dataMan.curConsensusEraGenesisHash) >>= fun eraGenesis =>
  match Loop.run (tryClearStep eraGenesis s.genesisSeqNum) fuel ⟨s, 0, false⟩ with
  | some r => r
  | none => .error outOfFuel

/-! ## 8. The two breadth-first propagations -/

/-- The state of a propagation loop: the graph and the channel it writes, the queue, the
    `invalid_set`, and the `need_to_relay` list that only the header propagation fills. -/
structure Propagation where
  inner : SynchronizationGraphInner
  newBlockHashes : List Nat
  queue : List Nat
  invalidSet : List Nat
  needToRelay : List Nat

namespace Propagation

/-- One child or referrer in `set_and_propagate_invalid`: unless already in the set, it
    turns invalid and is queued. -/
def markInvalid (p : Propagation) (c : Nat) : Propagation :=
  if c ∈ p.invalidSet then p
  else { p with inner := p.inner.setGraphStatus c .blockInvalid, queue := p.queue ++ [c],
                invalidSet := p.invalidSet.insert c }

/-- `set_and_propagate_invalid` (L958-L981). -/
def setAndPropagateInvalid (p : Propagation) (index : Nat) : Propagation :=
  let p := (p.inner.arena index).children.foldl markInvalid p
  (p.inner.arena index).referrers.foldl markInvalid p

/-- The branch both loops take when a block that just became ready fails its check. -/
def invalidate (p : Propagation) (index : Nat) : Propagation :=
  { p with invalidSet := p.invalidSet.insert index,
           inner := p.inner.setGraphStatus index .blockInvalid }.setAndPropagateInvalid index

/-- `set_graph_ready` (L1658-L1699): the block is graph-ready and is sent to consensus. -/
def setGraphReady (p : Propagation) (index : Nat) : Propagation :=
  { p with inner := p.inner.setGraphStatus index .blockGraphReady,
           newBlockHashes := p.newBlockHashes ++ [(p.inner.arena index).blockHeader.hash] }

/-- The start of both loops: every frontier node is queued, and the invalid ones are in
    the set. -/
def start (inner : SynchronizationGraphInner) (newBlockHashes frontier : List Nat) :
    Propagation :=
  ⟨inner, newBlockHashes, frontier,
    frontier.foldl (fun acc i => if (inner.arena i).graphStatus = .blockInvalid then
      acc.insert i else acc) [], []⟩

end Propagation

/-- One turn of `propagate_header_graph_status` (L1371-L1500). -/
def propagateHeaderGraphStatusStep (v : Verifier) (needToVerify insertToConsensus : Bool)
    (p : Propagation) : LoopStep Propagation Propagation :=
  match p.queue with
  | [] => .done p
  | index :: queue =>
    let p := { p with queue }
    if (p.inner.arena index).graphStatus = .blockInvalid then
      .next (p.setAndPropagateInvalid index)
    else
      let (inner, ready) := p.inner.newToBeHeaderGraphReady index
      let p := { p with inner }
      if ready then
        let p := { p with inner := p.inner.setGraphStatus index .blockHeaderGraphReady }
        if needToVerify && !v.verifyHeaderGraphReadyBlock (p.inner.arena index).blockHeader then
          .next (p.invalidate index)
        else
          let node := p.inner.arena index
          let p := if node.parentReclaimed then
            { p with inner := p.inner.pushOldEraBlocksFrontier index } else p
          let p := if insertToConsensus then
            { p with newBlockHashes := p.newBlockHashes ++ [node.blockHeader.hash] } else p
          let p := if node.blockReady then
            { p with needToRelay := p.needToRelay ++ [node.blockHeader.hash] } else p
          let waiting := fun c => decide ((p.inner.arena c).graphStatus < .blockHeaderGraphReady)
          .next { p with queue := p.queue ++ node.children.filter waiting ++
            node.referrers.filter waiting }
      else .next p

/-- `propagate_header_graph_status`. -/
def propagateHeaderGraphStatus (v : Verifier) (inner : SynchronizationGraphInner)
    (newBlockHashes frontier : List Nat) (needToVerify insertToConsensus : Bool) (fuel : Nat) :
    Except String Propagation :=
  ofFuel (Loop.run (propagateHeaderGraphStatusStep v needToVerify insertToConsensus) fuel
    (Propagation.start inner newBlockHashes frontier))

/-- One turn of `propagate_graph_status` (L1701-L1758). -/
def propagateGraphStatusStep (v : Verifier) (p : Propagation) : LoopStep Propagation Propagation :=
  match p.queue with
  | [] => .done p
  | index :: queue =>
    let p := { p with queue }
    if (p.inner.arena index).graphStatus = .blockInvalid then
      .next (p.setAndPropagateInvalid index)
    else
      let (inner, ready) := p.inner.newToBeBlockGraphReady index
      let p := { p with inner }
      if ready then
        if !v.verifySyncGraphReadyBlock (p.inner.arena index).blockHeader then
          .next (p.invalidate index)
        else
          let p := p.setGraphReady index
          let node := p.inner.arena index
          .next { p with queue := p.queue ++ node.children ++ node.referrers }
      else .next p

/-- `propagate_graph_status`. -/
def propagateGraphStatus (v : Verifier) (inner : SynchronizationGraphInner)
    (newBlockHashes frontier : List Nat) (fuel : Nat) : Except String Propagation :=
  ofFuel (Loop.run (propagateGraphStatusStep v) fuel
    (Propagation.start inner newBlockHashes frontier))

/-! ## 9. The two calls -/

namespace SynchronizationGraph

variable (g : SynchronizationGraph)

/-- `parent_or_referees_invalid`. -/
def parentOrRefereesInvalid (header : BlockHeader) : Bool :=
  (g.inner.dataMan.verifiedInvalid header.parentHash).1 ||
    header.refereeHashes.any fun referee => (g.inner.dataMan.verifiedInvalid referee).1

/-- `insert_block_header`, for a header the arena puts at the empty slot `me`.
    `consensus.current_era_genesis_seq_num()` is the era genesis's sequence number in the
    data manager. -/
def insertBlockHeader (header : BlockHeader) (needToVerify insertToConsensus : Bool)
    (me fuel : Nat) : Except String (SynchronizationGraph × BlockHeaderInsertionResult × List Nat) :=
  let inner := g.inner
  if inner.lockedForCatchup then .ok (g, .temporarySkipped, []) else
  let hash := header.hash
  let (invalid, localInfoOpt) := inner.dataMan.verifiedInvalid hash
  if invalid then .ok (g, .invalid, []) else
  let alreadyProcessed := match localInfoOpt with
    | some info =>
      decide (info.seqNum < inner.genesisSeqNum) || info.instanceId == inner.dataMan.instanceId
    | none => false
  if alreadyProcessed then .ok (g, .alreadyProcessedInConsensus, []) else
  if (inner.hashToArenaIndices hash).isSome then .ok (g, .alreadyProcessedInSync, []) else
  let verificationPassed :=
    if needToVerify then
      g.isConsortium || !(g.parentOrRefereesInvalid header ||
        !g.verificationConfig.verifyHeaderParams header)
    else true
  let inner := if verificationPassed then inner.insert header me else inner.insertInvalid header me
  propagateHeaderGraphStatus g.verificationConfig inner g.newBlockHashes [me] needToVerify
    insertToConsensus fuel >>= fun p =>
  let g := { g with inner := p.inner.processInvalidBlocks p.invalidSet,
                    newBlockHashes := p.newBlockHashes }
  if me ∈ p.invalidSet then .ok (g, .invalid, p.needToRelay) else
  g.inner.tryClearOldEraBlocks fuel >>= fun inner =>
  .ok ({ g with inner }, .newValid, p.needToRelay)

/-- `insert_block`. -/
def insertBlock (block : Block) (needToVerify : Bool) (fuel : Nat) :
    Except String (SynchronizationGraph × BlockInsertionResult) :=
  match g.inner.hashToArenaIndices block.blockHeader.hash with
  | none => .ok (g, .ignored)
  | some me =>
    if (g.inner.arena me).blockReady then .ok (g, .alreadyProcessed) else
    let inner := g.inner.setBlockReady me true
    let verdict : Except BlockError Unit :=
      if needToVerify then g.verificationConfig.verifySyncGraphBlockBasic block else .ok ()
    match verdict with
    | .error .invalidTransactionsRoot =>
      .ok ({ g with inner := inner.setBlockReady me false }, .requestAgain)
    | verdict =>
      let inner := match verdict with
        | .error _ => inner.setGraphStatus me .blockInvalid
        | .ok _ => inner
      if inner.lockedForCatchup then
        if (inner.arena me).graphStatus = .blockInvalid then
          propagateGraphStatus g.verificationConfig inner g.newBlockHashes [me] fuel >>= fun p =>
          .ok ({ g with inner := p.inner.processInvalidBlocks p.invalidSet,
                        newBlockHashes := p.newBlockHashes }, .invalid)
        else .ok ({ g with inner }, .alreadyProcessed)
      else
        propagateGraphStatus g.verificationConfig inner g.newBlockHashes [me] fuel >>= fun p =>
        let g := { g with inner := p.inner.processInvalidBlocks p.invalidSet,
                          newBlockHashes := p.newBlockHashes }
        if me ∈ p.invalidSet then .ok (g, .invalid)
        else if (g.inner.arena me).graphStatus ≥ .blockHeaderGraphReady then .ok (g, .shouldRelay)
        else .ok (g, .successWithoutRelay)

end SynchronizationGraph

/-- `SynchronizationGraphInner::with_genesis_block`: the era genesis goes into slot `0` of
    the empty arena, graph-ready, and opens the old-era frontier. -/
def SynchronizationGraphInner.withGenesisBlock (genesisHeader : BlockHeader)
    (dataMan : BlockDataManager) (posVerifier : PosVerifier) : SynchronizationGraphInner :=
  let inner : SynchronizationGraphInner :=
    ⟨∅, fun _ => .vacant, fun _ => none, dataMan, fun _ => [], fun _ => [], [], ∅, false,
      posVerifier⟩
  (inner.insert genesisHeader 0).pushOldEraBlocksFrontier 0

end Mazze.Sync
