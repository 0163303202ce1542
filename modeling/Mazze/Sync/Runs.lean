import Mazze.Sync.Invariant

/-!
# Runs of the synchronization graph

A run starts from the era genesis alone in the arena and interleaves the two calls of the
sync graph: `insert_block_header`, which the arena serves with a free slot, and
`insert_block`. Headers come from one `HeaderSet`. Both calls verify, and
`insert_to_consensus` is off, so every hash that reaches consensus goes out through
`new_block_hashes` from `set_graph_ready`.
-/

set_option autoImplicit false

namespace Mazze.Sync

variable (hs : HeaderSet)

/-- One call of a run. A call that panics or runs out of fuel ends the run, so only the
    calls that return are steps. -/
inductive Call : SynchronizationGraph → SynchronizationGraph → Prop
  | insertBlockHeader {g g' : SynchronizationGraph} (h me fuel : Nat)
      {r : BlockHeaderInsertionResult} {relay : List Nat} :
      me ∉ g.inner.keys → me ≠ NULL →
      g.insertBlockHeader (hs.header h) true false me fuel = .ok (g', r, relay) → Call g g'
  | insertBlock {g g' : SynchronizationGraph} (h fuel : Nat) (transactions : List Nat)
      {r : BlockInsertionResult} :
      g.insertBlock ⟨hs.header h, transactions⟩ true fuel = .ok (g', r) → Call g g'

/-- The graph a node starts from: the era genesis of `dm` alone, nothing sent. -/
def SynchronizationGraph.init (dm : BlockDataManager) (pos : PosVerifier) (v : Verifier)
    (isConsortium : Bool) : SynchronizationGraph :=
  ⟨SynchronizationGraphInner.withGenesisBlock (hs.header dm.curConsensusEraGenesisHash) dm pos,
    v, isConsortium, []⟩

/-- The graphs a run reaches. -/
inductive Reachable (dm : BlockDataManager) (pos : PosVerifier) (v : Verifier)
    (isConsortium : Bool) : SynchronizationGraph → Prop
  | init : Reachable dm pos v isConsortium (SynchronizationGraph.init hs dm pos v isConsortium)
  | step {g g' : SynchronizationGraph} :
      Reachable dm pos v isConsortium g → Call hs g g' → Reachable dm pos v isConsortium g'

/-! ## A header sent without its header check -/

/-- The era genesis `0`, and blocks with parent `0`; block `2` names the PoS decision `7`. -/
def pendingPosHeaders : HeaderSet where
  header h := if h = 0 then ⟨0, 100, [], none⟩ else if h = 2 then ⟨2, 0, [], some 7⟩
    else ⟨h, 0, [], none⟩
  hash_header h := by split_ifs <;> simp_all
  parentHash_ne h := by split_ifs <;> simp_all; omega
  not_mem_refereeHashes h := by split_ifs <;> simp

/-- The database knows the era genesis `0` only. -/
def pendingPosDm : BlockDataManager :=
  ⟨fun h => if h = 0 then some ⟨.valid, 0, 1⟩ else none, 1, 0⟩

/-- The PoS decision `7` is block `1`. -/
def pendingPos : PosVerifier := ⟨fun p => if p = 7 then some 1 else none⟩

/-- Every check passes but the header check of block `2`. -/
def pendingPosVerifier : Verifier :=
  ⟨fun _ => true, fun header => header.hash != 2, fun _ => .ok (), fun _ => true⟩

/-- Header `2` arrives while its PoS decision `1` is unknown, so it stays header-only;
    then header `1`, body `1` (which makes `1` graph-ready) and body `2`. The body's
    propagation lifts `2` from header-only to graph-ready and sends it, and the header check
    that would reject it never runs. -/
theorem pendingPos_sends_unchecked_header :
    ∃ g, Reachable pendingPosHeaders pendingPosDm pendingPos pendingPosVerifier false g ∧
      2 ∈ g.newBlockHashes ∧
      pendingPosVerifier.verifyHeaderGraphReadyBlock (pendingPosHeaders.header 2) = false := by
  have r₀ : Reachable pendingPosHeaders pendingPosDm pendingPos pendingPosVerifier false _ :=
    .init
  have r₁ := r₀.step (Call.insertBlockHeader 2 1 10 (by decide) (by decide) rfl)
  have r₂ := r₁.step (Call.insertBlockHeader 1 2 10 (by decide) (by decide) rfl)
  have r₃ := r₂.step (Call.insertBlock 1 10 [] rfl)
  have r₄ := r₃.step (Call.insertBlock 2 10 [] rfl)
  exact ⟨_, r₄, by decide, by decide⟩

end Mazze.Sync
