import Mazze.Sync.Frame

/-!
# The invariant of the synchronization graph

A run hands the graph headers from a `HeaderSet`, one header per hash, none naming itself.
Between two calls, and at every turn of the two propagation loops, the graph keeps three
groups of facts.

* `Links`: the arena indexes each hash once. Parent, children, referee and referrer links
  agree in both directions, and every node carries the header of its hash.
* `Ready`: the facts about `graph_status`. A graph-ready node has graph-ready parent and
  referees. It has its body, and it was sent or is graph-ready in the database. A node
  that the database calls graph-ready is graph-ready. A reclaimed parent is graph-ready
  in the database. A node still waiting in `children_by_hash` or `referrers_by_hash` is not
  graph-ready, unless the hash it waits for is graph-ready in the database.
* `Sent`: what went out on `new_block_hashes`. No hash is sent twice, and every hash is
  graph-ready here or in the database. Each hash's parent and referees were sent before
  it, or are graph-ready in the database and are never sent.

This module states the three and proves what each kind of write keeps. A status that
stays below `BLOCK_GRAPH_READY`, a reclaimed parent, a frontier push or a body flag keeps
all three (`setGraphStatus_below`, `setParentReclaimed`, `pushOldEraBlocksFrontier`,
`setBlockReady`). A node that becomes graph-ready, with its parent and referees ready,
keeps all three once its hash is sent (`setGraphReady`). Database writes keep them when
they do not touch a graph-ready hash.
-/

set_option autoImplicit false

namespace Mazze.Sync

/-- The headers a run can meet: one per hash, and no header names itself as its parent or
    a referee, which a hash covering the header's contents rules out. -/
structure HeaderSet where
  header : Nat → BlockHeader
  hash_header : ∀ h, (header h).hash = h
  parentHash_ne : ∀ h, (header h).parentHash ≠ h
  not_mem_refereeHashes : ∀ h, h ∉ (header h).refereeHashes

/-- The hashes a block depends on: its parent's and its referees'. -/
def BlockHeader.deps (header : BlockHeader) : List Nat := header.parentHash :: header.refereeHashes

namespace BlockDataManager

/-- The sequence number of the era genesis, `0` when it is not recorded. -/
def genesisSeqNum (dm : BlockDataManager) : Nat :=
  match dm.localBlockInfo dm.curConsensusEraGenesisHash with
  | some info => info.seqNum
  | none => 0

/-- The data manager records the block as graph-ready: not invalid, and ordered before the
    era genesis or already processed by this instance. -/
def GraphReady (dm : BlockDataManager) (h : Nat) : Prop :=
  ∃ info, dm.localBlockInfo h = some info ∧ info.status ≠ .invalid ∧
    (info.seqNum < dm.genesisSeqNum ∨ info.instanceId = dm.instanceId)

/-- An invalidation that does not touch the era genesis or a graph-ready hash leaves every
    hash as graph-ready as it was. -/
theorem graphReady_invalidateBlock {dm : BlockDataManager} {b : Nat}
    (hb : ¬ dm.GraphReady b) (hg : b ≠ dm.curConsensusEraGenesisHash) (h : Nat) :
    (dm.invalidateBlock b).GraphReady h ↔ dm.GraphReady h := by
  have hseq : (dm.invalidateBlock b).genesisSeqNum = dm.genesisSeqNum := by
    simp [genesisSeqNum, invalidateBlock, Function.update_of_ne (Ne.symm hg)]
  by_cases hh : h = b
  · subst hh
    simp only [hb, iff_false]
    rintro ⟨info, hinfo, hst, -⟩
    simp [invalidateBlock] at hinfo
    exact hst (hinfo ▸ rfl)
  · unfold GraphReady
    rw [hseq]
    simp only [invalidateBlock, Function.update_of_ne hh]

end BlockDataManager

namespace SynchronizationGraphInner

variable (s : SynchronizationGraphInner)

/-- `is_graph_ready_in_db` against the era genesis is `GraphReady`. -/
theorem isGraphReadyInDb_iff (h : Nat) :
    s.isGraphReadyInDb h s.genesisSeqNum = true ↔ s.dataMan.GraphReady h := by
  unfold isGraphReadyInDb BlockDataManager.GraphReady
  have hseq : s.genesisSeqNum = s.dataMan.genesisSeqNum := rfl
  cases hinfo : s.dataMan.localBlockInfo h with
  | none => simp
  | some info =>
    by_cases hst : info.status = .invalid
    · simp [hst]
    · simp [hst, hseq]

end SynchronizationGraphInner

variable (hs : HeaderSet)

/-! ## 1. The links -/

/-- The arena's links agree with each other and with the headers. -/
structure Links (s : SynchronizationGraphInner) : Prop where
  null_not_mem : NULL ∉ s.keys
  header_eq : ∀ i ∈ s.keys, (s.arena i).blockHeader = hs.header (s.arena i).blockHeader.hash
  index_iff : ∀ h i, s.hashToArenaIndices h = some i ↔ i ∈ s.keys ∧ (s.arena i).blockHeader.hash = h
  parent_mem : ∀ i ∈ s.keys, (s.arena i).parent ≠ NULL →
    (s.arena i).parent ∈ s.keys ∧
      (s.arena (s.arena i).parent).blockHeader.hash = (s.arena i).blockHeader.parentHash ∧
      i ∈ (s.arena (s.arena i).parent).children
  children_mem : ∀ p ∈ s.keys, ∀ c ∈ (s.arena p).children, c ∈ s.keys ∧ (s.arena c).parent = p
  referees_mem : ∀ i ∈ s.keys, ∀ r ∈ (s.arena i).referees, r ∈ s.keys ∧ i ∈ (s.arena r).referrers
  referrers_mem : ∀ r ∈ s.keys, ∀ x ∈ (s.arena r).referrers, x ∈ s.keys ∧ r ∈ (s.arena x).referees
  referees_hash : ∀ i ∈ s.keys, ∀ r ∈ (s.arena i).referees,
    (s.arena r).blockHeader.hash ∈ (s.arena i).blockHeader.refereeHashes

/-- Two graphs whose arenas differ at most in statuses and flags. -/
structure SameShape (s s' : SynchronizationGraphInner) : Prop where
  keys : s'.keys = s.keys
  index : s'.hashToArenaIndices = s.hashToArenaIndices
  blockHeader : ∀ i, (s'.arena i).blockHeader = (s.arena i).blockHeader
  parent : ∀ i, (s'.arena i).parent = (s.arena i).parent
  children : ∀ i, (s'.arena i).children = (s.arena i).children
  referees : ∀ i, (s'.arena i).referees = (s.arena i).referees
  referrers : ∀ i, (s'.arena i).referrers = (s.arena i).referrers

namespace SameShape

variable {s s' s'' : SynchronizationGraphInner}

theorem refl (s : SynchronizationGraphInner) : SameShape s s :=
  ⟨rfl, rfl, fun _ => rfl, fun _ => rfl, fun _ => rfl, fun _ => rfl, fun _ => rfl⟩

theorem trans (h : SameShape s s') (h' : SameShape s' s'') : SameShape s s'' :=
  ⟨h'.keys.trans h.keys, h'.index.trans h.index, fun i => (h'.blockHeader i).trans (h.blockHeader i),
    fun i => (h'.parent i).trans (h.parent i), fun i => (h'.children i).trans (h.children i),
    fun i => (h'.referees i).trans (h.referees i), fun i => (h'.referrers i).trans (h.referrers i)⟩

theorem setGraphStatus (s : SynchronizationGraphInner) (i : Nat) (st : GraphStatus) :
    SameShape s (s.setGraphStatus i st) := by
  constructor <;> intros <;> simp

theorem setParentReclaimed (s : SynchronizationGraphInner) (i : Nat) :
    SameShape s (s.setParentReclaimed i) := by
  constructor <;> intros <;> simp

theorem setBlockReady (s : SynchronizationGraphInner) (i : Nat) (b : Bool) :
    SameShape s (s.setBlockReady i b) := by
  constructor <;> intros <;> simp

theorem pushOldEraBlocksFrontier (s : SynchronizationGraphInner) (i : Nat) :
    SameShape s (s.pushOldEraBlocksFrontier i) := by
  constructor <;> intros <;> simp

end SameShape

namespace Links

variable {hs} {s : SynchronizationGraphInner}

/-- A hash names at most one node. -/
theorem eq_of_hash (hl : Links hs s) {i j : Nat} (hi : i ∈ s.keys) (hj : j ∈ s.keys)
    (h : (s.arena i).blockHeader.hash = (s.arena j).blockHeader.hash) : i = j := by
  have hi' := (hl.index_iff _ i).mpr ⟨hi, rfl⟩
  have hj' := (hl.index_iff _ j).mpr ⟨hj, h.symm⟩
  exact Option.some.inj (hi'.symm.trans hj')

theorem ne_null (hl : Links hs s) {i : Nat} (hi : i ∈ s.keys) : i ≠ NULL := by
  rintro rfl
  exact hl.null_not_mem hi

/-- Links depend on the shape of the arena only. -/
theorem of_sameShape (hl : Links hs s) {s' : SynchronizationGraphInner} (h : SameShape s s') :
    Links hs s' where
  null_not_mem := h.keys ▸ hl.null_not_mem
  header_eq i hi := by
    rw [h.blockHeader]
    exact hl.header_eq i (h.keys ▸ hi)
  index_iff hh i := by
    rw [h.index, h.keys, h.blockHeader]
    exact hl.index_iff hh i
  parent_mem i hi hp := by
    simp only [h.keys, h.parent, h.blockHeader, h.children] at hi hp ⊢
    exact hl.parent_mem i hi hp
  children_mem p hp c hc := by
    simp only [h.keys, h.parent, h.children] at hp hc ⊢
    exact hl.children_mem p hp c hc
  referees_mem i hi r hr := by
    simp only [h.keys, h.referees, h.referrers] at hi hr ⊢
    exact hl.referees_mem i hi r hr
  referrers_mem r hr x hx := by
    simp only [h.keys, h.referees, h.referrers] at hr hx ⊢
    exact hl.referrers_mem r hr x hx
  referees_hash i hi r hr := by
    simp only [h.keys, h.referees, h.blockHeader] at hi hr ⊢
    exact hl.referees_hash i hi r hr

/-- A node is not its own parent: its header does not name itself. -/
theorem parent_ne_self (hl : Links hs s) {i : Nat} (hi : i ∈ s.keys) : (s.arena i).parent ≠ i := by
  intro hp
  have hnull : (s.arena i).parent ≠ NULL := by rw [hp]; exact hl.ne_null hi
  have hh := (hl.parent_mem i hi hnull).2.1
  rw [hp, hl.header_eq i hi] at hh
  exact hs.parentHash_ne _ (by rw [hs.hash_header] at hh; exact hh.symm)

/-- A node is not its own referee: its header does not name itself. -/
theorem not_mem_referees_self (hl : Links hs s) {i : Nat} (hi : i ∈ s.keys) :
    i ∉ (s.arena i).referees := by
  intro hr
  have hh := hl.referees_hash i hi i hr
  rw [hl.header_eq i hi, hs.hash_header] at hh
  exact hs.not_mem_refereeHashes _ hh

end Links

/-! ## 2. The readiness facts -/

/-- The facts about statuses, flags and waiting lists, with `sent` the channel so far. -/
structure Ready (s : SynchronizationGraphInner) (sent : List Nat) : Prop where
  closed : ∀ i ∈ s.keys, (s.arena i).graphStatus = .blockGraphReady →
    ((s.arena i).parent = NULL ∨ (s.arena (s.arena i).parent).graphStatus = .blockGraphReady) ∧
      ∀ r ∈ (s.arena i).referees, (s.arena r).graphStatus = .blockGraphReady
  blockReady : ∀ i ∈ s.keys, (s.arena i).graphStatus = .blockGraphReady → (s.arena i).blockReady = true
  sent_or_db : ∀ i ∈ s.keys, (s.arena i).graphStatus = .blockGraphReady →
    (s.arena i).blockHeader.hash ∈ sent ∨ s.dataMan.GraphReady (s.arena i).blockHeader.hash
  db_ready : ∀ i ∈ s.keys, s.dataMan.GraphReady (s.arena i).blockHeader.hash →
    (s.arena i).graphStatus = .blockGraphReady
  reclaimed : ∀ i ∈ s.keys, (s.arena i).parentReclaimed = true →
    (s.arena i).parent = NULL ∧ s.dataMan.GraphReady (s.arena i).blockHeader.parentHash
  waiting_children : ∀ h c, c ∈ s.childrenByHash h → s.dataMan.GraphReady h ∨
    (c ∈ s.keys ∧ (s.arena c).parent = NULL ∧ (s.arena c).blockHeader.parentHash = h ∧
      (s.arena c).graphStatus ≠ .blockGraphReady)
  waiting_referrers : ∀ h x, x ∈ s.referrersByHash h → s.dataMan.GraphReady h ∨
    (x ∈ s.keys ∧ s.hashToArenaIndices h = none ∧ h ∈ (s.arena x).blockHeader.refereeHashes ∧
      (s.arena x).graphStatus ≠ .blockGraphReady)
  frontier : ∀ i ∈ s.oldEraBlocksFrontierSet, i ∈ s.keys ∧
    ((s.arena i).parentReclaimed = true ∨
      (s.arena i).blockHeader.hash = s.dataMan.curConsensusEraGenesisHash)
  genesis_ready : s.dataMan.GraphReady s.dataMan.curConsensusEraGenesisHash

/-- What went out on `new_block_hashes`. -/
structure Sent (s : SynchronizationGraphInner) (sent : List Nat) : Prop where
  nodup : sent.Nodup
  ready : ∀ h ∈ sent, s.dataMan.GraphReady h ∨
    ∃ i ∈ s.keys, (s.arena i).blockHeader.hash = h ∧ (s.arena i).graphStatus = .blockGraphReady
  ordered : ∀ (k : Nat) (hk : k < sent.length), ∀ d ∈ (hs.header sent[k]).deps,
    d ∈ sent.take k ∨ (s.dataMan.GraphReady d ∧ d ∉ sent)
  genesis_not_sent : s.dataMan.curConsensusEraGenesisHash ∉ sent

namespace Ready

variable {hs} {s : SynchronizationGraphInner} {sent : List Nat}

/-- A node below `BLOCK_GRAPH_READY` is not the parent of a graph-ready node. -/
theorem parent_ne_of_below (hr : Ready s sent) {i j : Nat} (hj : j ∈ s.keys)
    (hjr : (s.arena j).graphStatus = .blockGraphReady) (hi : (s.arena i).graphStatus ≠ .blockGraphReady)
    (hnull : i ≠ NULL) : (s.arena j).parent ≠ i := by
  rintro rfl
  rcases (hr.closed j hj hjr).1 with h | h
  · exact hnull h
  · exact hi h

/-- A node below `BLOCK_GRAPH_READY` is not a referee of a graph-ready node. -/
theorem not_mem_referees_of_below (hr : Ready s sent) {i j : Nat} (hj : j ∈ s.keys)
    (hjr : (s.arena j).graphStatus = .blockGraphReady) (hi : (s.arena i).graphStatus ≠ .blockGraphReady) :
    i ∉ (s.arena j).referees :=
  fun h => hi ((hr.closed j hj hjr).2 i h)

end Ready

/-! ## 3. What each write keeps -/

namespace GraphStatus

theorem ge_blockGraphReady_iff (st : GraphStatus) : st ≥ .blockGraphReady ↔ st = .blockGraphReady := by
  cases st <;> decide

theorem lt_blockGraphReady_iff (st : GraphStatus) : st < .blockGraphReady ↔ st ≠ .blockGraphReady := by
  cases st <;> decide

end GraphStatus

/-- What `new_to_be_graph_ready` checks of a node before it climbs to `m`: it is below `m`;
    its parent is reclaimed, graph-ready in the database, or at least `m`; its referees in
    memory are at least `m`; and every referee hash is one of theirs or graph-ready in the
    database. -/
structure Admissible (s : SynchronizationGraphInner) (i : Nat) (m : GraphStatus) : Prop where
  below : (s.arena i).graphStatus < m
  parent : ((s.arena i).parent = NULL ∧ ((s.arena i).parentReclaimed = true ∨
      s.dataMan.GraphReady (s.arena i).blockHeader.parentHash)) ∨
    ((s.arena i).parent ≠ NULL ∧ (s.arena (s.arena i).parent).graphStatus ≥ m)
  referees : ∀ r ∈ (s.arena i).referees, (s.arena r).graphStatus ≥ m
  refereeHashes : ∀ h ∈ (s.arena i).blockHeader.refereeHashes,
    h ∈ (s.arena i).referees.map (fun r => (s.arena r).blockHeader.hash) ∨ s.dataMan.GraphReady h

variable {hs} {s : SynchronizationGraphInner} {sent : List Nat} {i : Nat}

namespace Ready

/-- A node below `BLOCK_GRAPH_READY` is not graph-ready in the database. -/
theorem not_graphReady_of_below (hr : Ready s sent) (hi : i ∈ s.keys)
    (hbelow : (s.arena i).graphStatus ≠ .blockGraphReady) :
    ¬ s.dataMan.GraphReady (s.arena i).blockHeader.hash :=
  fun h => hbelow (hr.db_ready i hi h)

/-- A status write that stays below `BLOCK_GRAPH_READY`, on a node below it. -/
theorem setGraphStatus_below (hl : Links hs s) (hr : Ready s sent) (hi : i ∈ s.keys)
    (hbelow : (s.arena i).graphStatus ≠ .blockGraphReady) {st : GraphStatus}
    (hst : st ≠ .blockGraphReady) : Ready (s.setGraphStatus i st) sent where
  closed j hj hjr := by
    have hji : j ≠ i := by rintro rfl; simp_all
    simp only [SynchronizationGraphInner.setGraphStatus_eq, update_graphStatus, update_parent,
      update_referees, hji, if_false] at hj hjr ⊢
    obtain ⟨hp, href⟩ := hr.closed j hj hjr
    have hpi : (s.arena j).parent ≠ i := hr.parent_ne_of_below hj hjr hbelow (hl.ne_null hi)
    refine ⟨by simpa [hpi] using hp, fun r hr' => ?_⟩
    have hri : r ≠ i := fun h => hbelow (h ▸ href r hr')
    simpa [hri] using href r hr'
  blockReady j hj hjr := by
    have hji : j ≠ i := by rintro rfl; simp_all
    simp only [SynchronizationGraphInner.setGraphStatus_eq, update_graphStatus, update_blockReady,
      hji, if_false] at hj hjr ⊢
    simpa using hr.blockReady j hj hjr
  sent_or_db j hj hjr := by
    have hji : j ≠ i := by rintro rfl; simp_all
    simp only [SynchronizationGraphInner.setGraphStatus_eq, update_graphStatus, hji,
      if_false] at hj hjr ⊢
    simpa using hr.sent_or_db j hj hjr
  db_ready j hj hdb := by
    simp only [SynchronizationGraphInner.setGraphStatus_eq, update_graphStatus,
      update_blockHeader, ite_blockHeader] at hj hdb ⊢
    have hgr := hr.db_ready j hj hdb
    have hji : j ≠ i := by rintro rfl; exact hbelow hgr
    simpa [hji] using hgr
  reclaimed j hj hrec := by
    simp only [SynchronizationGraphInner.setGraphStatus_eq, update_parentReclaimed,
      ite_parentReclaimed, update_parent, ite_parent, update_blockHeader, ite_blockHeader] at hj hrec ⊢
    exact hr.reclaimed j hj hrec
  waiting_children h c hc := by
    simp only [SynchronizationGraphInner.setGraphStatus_eq, update_graphStatus, update_parent,
      ite_parent, update_blockHeader, ite_blockHeader] at hc ⊢
    rcases hr.waiting_children h c hc with hdb | ⟨hck, hcp, hch, hcs⟩
    · exact .inl hdb
    · refine .inr ⟨hck, hcp, hch, ?_⟩
      split <;> assumption
  waiting_referrers h x hx := by
    simp only [SynchronizationGraphInner.setGraphStatus_eq, update_graphStatus, update_blockHeader,
      ite_blockHeader] at hx ⊢
    rcases hr.waiting_referrers h x hx with hdb | ⟨hxk, hxi, hxh, hxs⟩
    · exact .inl hdb
    · refine .inr ⟨hxk, hxi, hxh, ?_⟩
      split <;> assumption
  frontier j hj := by
    simp only [SynchronizationGraphInner.setGraphStatus_eq, update_parentReclaimed,
      ite_parentReclaimed, update_blockHeader, ite_blockHeader] at hj ⊢
    exact hr.frontier j hj
  genesis_ready := hr.genesis_ready

/-- `parent_reclaimed = true` on a node with no parent in memory and a graph-ready parent in
    the database. -/
theorem setParentReclaimed (hr : Ready s sent) (hp : (s.arena i).parent = NULL)
    (hdb : s.dataMan.GraphReady (s.arena i).blockHeader.parentHash) :
    Ready (s.setParentReclaimed i) sent where
  closed j hj hjr := by
    simp only [SynchronizationGraphInner.setParentReclaimed_eq, update_graphStatus, ite_graphStatus,
      update_parent, ite_parent, update_referees, ite_referees] at hj hjr ⊢
    exact hr.closed j hj hjr
  blockReady j hj hjr := by
    simp only [SynchronizationGraphInner.setParentReclaimed_eq, update_graphStatus, ite_graphStatus,
      update_blockReady, ite_blockReady] at hj hjr ⊢
    exact hr.blockReady j hj hjr
  sent_or_db j hj hjr := by
    simp only [SynchronizationGraphInner.setParentReclaimed_eq, update_graphStatus, ite_graphStatus,
      update_blockHeader, ite_blockHeader] at hj hjr ⊢
    exact hr.sent_or_db j hj hjr
  db_ready j hj hdb := by
    simp only [SynchronizationGraphInner.setParentReclaimed_eq, update_graphStatus, ite_graphStatus,
      update_blockHeader, ite_blockHeader] at hj hdb ⊢
    exact hr.db_ready j hj hdb
  reclaimed j hj hrec := by
    simp only [SynchronizationGraphInner.setParentReclaimed_eq, update_parentReclaimed, update_parent,
      ite_parent, update_blockHeader, ite_blockHeader] at hj hrec ⊢
    by_cases hji : j = i
    · subst hji; exact ⟨hp, hdb⟩
    · simp only [hji, if_false] at hrec
      exact hr.reclaimed j hj hrec
  waiting_children h c hc := by
    simpa only [SynchronizationGraphInner.setParentReclaimed_eq, update_graphStatus, ite_graphStatus,
      update_parent, ite_parent, update_blockHeader, ite_blockHeader] using hr.waiting_children h c hc
  waiting_referrers h x hx := by
    simpa only [SynchronizationGraphInner.setParentReclaimed_eq, update_graphStatus, ite_graphStatus,
      update_blockHeader, ite_blockHeader] using hr.waiting_referrers h x hx
  frontier j hj := by
    simp only [SynchronizationGraphInner.setParentReclaimed_eq, update_parentReclaimed,
      update_blockHeader, ite_blockHeader] at hj ⊢
    obtain ⟨hjk, hjr⟩ := hr.frontier j hj
    refine ⟨hjk, ?_⟩
    split
    · exact .inl rfl
    · exact hjr
  genesis_ready := hr.genesis_ready

/-- A node with a reclaimed parent joins the old-era frontier. -/
theorem pushOldEraBlocksFrontier (hr : Ready s sent) (hi : i ∈ s.keys)
    (hrec : (s.arena i).parentReclaimed = true) : Ready (s.pushOldEraBlocksFrontier i) sent :=
  { hr with
    frontier := fun j hj => by
      simp only [SynchronizationGraphInner.pushOldEraBlocksFrontier_eq, Finset.mem_insert] at hj ⊢
      rcases hj with rfl | hj
      · exact ⟨hi, .inl hrec⟩
      · exact hr.frontier j hj }

/-- A body flag that is only cleared on a node below `BLOCK_GRAPH_READY`. -/
theorem setBlockReady (hr : Ready s sent) {b : Bool}
    (hb : b = false → (s.arena i).graphStatus ≠ .blockGraphReady) :
    Ready (s.setBlockReady i b) sent where
  closed j hj hjr := by
    simp only [SynchronizationGraphInner.setBlockReady_eq, update_graphStatus, ite_graphStatus,
      update_parent, ite_parent, update_referees, ite_referees] at hj hjr ⊢
    exact hr.closed j hj hjr
  blockReady j hj hjr := by
    simp only [SynchronizationGraphInner.setBlockReady_eq, update_graphStatus, ite_graphStatus,
      update_blockReady] at hj hjr ⊢
    split
    · rename_i hji
      subst hji
      cases b
      · exact absurd hjr (hb rfl)
      · rfl
    · exact hr.blockReady j hj hjr
  sent_or_db j hj hjr := by
    simp only [SynchronizationGraphInner.setBlockReady_eq, update_graphStatus, ite_graphStatus,
      update_blockHeader, ite_blockHeader] at hj hjr ⊢
    exact hr.sent_or_db j hj hjr
  db_ready j hj hdb := by
    simp only [SynchronizationGraphInner.setBlockReady_eq, update_graphStatus, ite_graphStatus,
      update_blockHeader, ite_blockHeader] at hj hdb ⊢
    exact hr.db_ready j hj hdb
  reclaimed j hj hrec := by
    simp only [SynchronizationGraphInner.setBlockReady_eq, update_parentReclaimed,
      ite_parentReclaimed, update_parent, ite_parent, update_blockHeader, ite_blockHeader] at hj hrec ⊢
    exact hr.reclaimed j hj hrec
  waiting_children h c hc := by
    simpa only [SynchronizationGraphInner.setBlockReady_eq, update_graphStatus, ite_graphStatus,
      update_parent, ite_parent, update_blockHeader, ite_blockHeader] using hr.waiting_children h c hc
  waiting_referrers h x hx := by
    simpa only [SynchronizationGraphInner.setBlockReady_eq, update_graphStatus, ite_graphStatus,
      update_blockHeader, ite_blockHeader] using hr.waiting_referrers h x hx
  frontier j hj := by
    simpa only [SynchronizationGraphInner.setBlockReady_eq, update_parentReclaimed,
      ite_parentReclaimed, update_blockHeader, ite_blockHeader] using hr.frontier j hj
  genesis_ready := hr.genesis_ready

end Ready

namespace Sent

/-- The channel's facts survive any change that keeps the hashes of the nodes and the
    database, where a graph-ready node stays in the arena and graph-ready, or is graph-ready
    in the database. -/
theorem mono (hse : Sent hs s sent) {s' : SynchronizationGraphInner}
    (hh : ∀ i, (s'.arena i).blockHeader.hash = (s.arena i).blockHeader.hash)
    (hdb : s'.dataMan = s.dataMan)
    (hgr : ∀ i ∈ s.keys, (s.arena i).graphStatus = .blockGraphReady →
      (i ∈ s'.keys ∧ (s'.arena i).graphStatus = .blockGraphReady) ∨
        s.dataMan.GraphReady (s.arena i).blockHeader.hash) : Sent hs s' sent where
  nodup := hse.nodup
  ready h hh' := by
    rw [hdb]
    rcases hse.ready h hh' with hdb' | ⟨j, hj, hjh, hjs⟩
    · exact .inl hdb'
    · rcases hgr j hj hjs with ⟨hj', hjs'⟩ | hdb'
      · exact .inr ⟨j, hj', (hh j).trans hjh, hjs'⟩
      · exact .inl (hjh ▸ hdb')
  ordered k hk' d hd := by
    rw [hdb]
    exact hse.ordered k hk' d hd
  genesis_not_sent := by
    rw [hdb]
    exact hse.genesis_not_sent

end Sent

/-- A node that passes `new_to_be_graph_ready` for `BLOCK_GRAPH_READY` and has its body
    becomes graph-ready, and its hash is sent: all three groups of facts hold after. -/
theorem Ready.setGraphReady (hl : Links hs s) (hr : Ready s sent) (hi : i ∈ s.keys)
    (ha : Admissible s i .blockGraphReady) (hb : (s.arena i).blockReady = true) :
    Ready (s.setGraphStatus i .blockGraphReady) (sent ++ [(s.arena i).blockHeader.hash]) where
  closed j hj hjr := by
    simp only [SynchronizationGraphInner.setGraphStatus_eq, update_graphStatus, update_parent,
      ite_parent, update_referees, ite_referees] at hj hjr ⊢
    have hup : ∀ k, (s.arena k).graphStatus = .blockGraphReady →
        (if k = i then GraphStatus.blockGraphReady else (s.arena k).graphStatus) = .blockGraphReady :=
      fun k hk => by split <;> simp_all
    by_cases hji : j = i
    · subst hji
      refine ⟨?_, fun r hr' => hup r ((GraphStatus.ge_blockGraphReady_iff _).mp (ha.referees r hr'))⟩
      rcases ha.parent with ⟨hp, -⟩ | ⟨-, hp⟩
      · exact .inl hp
      · exact .inr (hup _ ((GraphStatus.ge_blockGraphReady_iff _).mp hp))
    · simp only [hji, if_false] at hjr
      obtain ⟨hp, href⟩ := hr.closed j hj hjr
      exact ⟨hp.imp_right (hup _), fun r hr' => hup r (href r hr')⟩
  blockReady j hj hjr := by
    simp only [SynchronizationGraphInner.setGraphStatus_eq, update_graphStatus, update_blockReady,
      ite_blockReady] at hj hjr ⊢
    by_cases hji : j = i
    · subst hji; exact hb
    · simp only [hji, if_false] at hjr
      exact hr.blockReady j hj hjr
  sent_or_db j hj hjr := by
    simp only [SynchronizationGraphInner.setGraphStatus_eq, update_graphStatus, update_blockHeader,
      ite_blockHeader, List.mem_append, List.mem_singleton] at hj hjr ⊢
    by_cases hji : j = i
    · subst hji; exact .inl (.inr rfl)
    · simp only [hji, if_false] at hjr
      exact (hr.sent_or_db j hj hjr).imp_left .inl
  db_ready j hj hdb := by
    simp only [SynchronizationGraphInner.setGraphStatus_eq, update_graphStatus, update_blockHeader,
      ite_blockHeader] at hj hdb ⊢
    split
    · rfl
    · exact hr.db_ready j hj hdb
  reclaimed j hj hrec := by
    simp only [SynchronizationGraphInner.setGraphStatus_eq, update_parentReclaimed,
      ite_parentReclaimed, update_parent, ite_parent, update_blockHeader, ite_blockHeader] at hj hrec ⊢
    exact hr.reclaimed j hj hrec
  waiting_children h c hc := by
    simp only [SynchronizationGraphInner.setGraphStatus_eq, update_graphStatus, update_parent,
      ite_parent, update_blockHeader, ite_blockHeader] at hc ⊢
    rcases hr.waiting_children h c hc with hdb | ⟨hck, hcp, hch, hcs⟩
    · exact .inl hdb
    · by_cases hci : c = i
      · -- the node leaves the wait only because its parent is graph-ready in the database
        subst hci
        left
        rcases ha.parent with ⟨-, hrec | hdb⟩ | ⟨hp, -⟩
        · exact hch ▸ (hr.reclaimed c hck hrec).2
        · exact hch ▸ hdb
        · exact absurd hcp hp
      · exact .inr ⟨hck, hcp, hch, by simpa [hci] using hcs⟩
  waiting_referrers h x hx := by
    simp only [SynchronizationGraphInner.setGraphStatus_eq, update_graphStatus, update_blockHeader,
      ite_blockHeader] at hx ⊢
    rcases hr.waiting_referrers h x hx with hdb | ⟨hxk, hxi, hxh, hxs⟩
    · exact .inl hdb
    · by_cases hxi' : x = i
      · -- a referee hash held by a referee in memory would be indexed
        subst hxi'
        left
        rcases ha.refereeHashes h hxh with hm | hdb
        · obtain ⟨r, hr', hrh⟩ := List.mem_map.mp hm
          have hrk := (hl.referees_mem x hxk r hr').1
          rw [(hl.index_iff h r).mpr ⟨hrk, hrh⟩] at hxi
          exact absurd hxi (by simp)
        · exact hdb
      · exact .inr ⟨hxk, hxi, hxh, by simpa [hxi'] using hxs⟩
  frontier j hj := by
    simpa only [SynchronizationGraphInner.setGraphStatus_eq, update_parentReclaimed,
      ite_parentReclaimed, update_blockHeader, ite_blockHeader] using hr.frontier j hj
  genesis_ready := hr.genesis_ready

/-- A dependency that is sent or graph-ready in the database, seen from a channel that now
    also carries a hash the database does not call graph-ready. -/
theorem Sent.dep_of_sent_or_db {dm : BlockDataManager} {x d : Nat} (hx : ¬ dm.GraphReady x)
    (hd : d ∈ sent ∨ dm.GraphReady d) : d ∈ sent ∨ (dm.GraphReady d ∧ d ∉ sent ++ [x]) := by
  by_cases hds : d ∈ sent
  · exact .inl hds
  · rcases hd with hd | hd
    · exact absurd hd hds
    · refine .inr ⟨hd, ?_⟩
      simp only [List.mem_append, List.mem_singleton, not_or]
      exact ⟨hds, fun h => hx (h ▸ hd)⟩

/-- The channel's facts after `set_graph_ready` sends the hash of an admissible node. -/
theorem Sent.setGraphReady (hl : Links hs s) (hr : Ready s sent) (hse : Sent hs s sent)
    (hi : i ∈ s.keys) (ha : Admissible s i .blockGraphReady) :
    Sent hs (s.setGraphStatus i .blockGraphReady) (sent ++ [(s.arena i).blockHeader.hash]) := by
  have hbelow : (s.arena i).graphStatus ≠ .blockGraphReady :=
    (GraphStatus.lt_blockGraphReady_iff _).mp ha.below
  have hxdb := hr.not_graphReady_of_below hi hbelow
  have hxs : (s.arena i).blockHeader.hash ∉ sent := by
    intro hx
    rcases hse.ready _ hx with hdb | ⟨j, hj, hjh, hjs⟩
    · exact hxdb hdb
    · exact hbelow (hl.eq_of_hash hj hi hjh ▸ hjs)
  -- every dependency of the node is sent or graph-ready in the database
  have hdeps : ∀ d ∈ (s.arena i).blockHeader.deps, d ∈ sent ∨ s.dataMan.GraphReady d := by
    intro d hd
    rcases List.mem_cons.mp hd with rfl | hd
    · rcases ha.parent with ⟨-, hrec | hdb⟩ | ⟨hp, hps⟩
      · exact .inr (hr.reclaimed i hi hrec).2
      · exact .inr hdb
      · obtain ⟨hpk, hph, -⟩ := hl.parent_mem i hi hp
        rw [← hph]
        exact hr.sent_or_db _ hpk ((GraphStatus.ge_blockGraphReady_iff _).mp hps)
    · rcases ha.refereeHashes d hd with hm | hdb
      · obtain ⟨r, hr', rfl⟩ := List.mem_map.mp hm
        exact hr.sent_or_db r (hl.referees_mem i hi r hr').1
          ((GraphStatus.ge_blockGraphReady_iff _).mp (ha.referees r hr'))
      · exact .inr hdb
  refine
    { nodup := List.nodup_append.mpr ⟨hse.nodup, List.nodup_singleton _, ?_⟩
      ready := ?_
      ordered := ?_
      genesis_not_sent := ?_ }
  · intro a ha' b hb'
    rw [List.mem_singleton] at hb'
    rintro rfl
    exact hxs (hb' ▸ ha')
  · intro h hh
    simp only [SynchronizationGraphInner.setGraphStatus_eq, update_graphStatus, update_blockHeader,
      ite_blockHeader, List.mem_append, List.mem_singleton] at hh ⊢
    rcases hh with hh | rfl
    · rcases hse.ready h hh with hdb | ⟨j, hj, hjh, hjs⟩
      · exact .inl hdb
      · exact .inr ⟨j, hj, hjh, by split <;> simp_all⟩
    · exact .inr ⟨i, hi, rfl, by simp⟩
  · intro k hk d hd
    simp only [SynchronizationGraphInner.setGraphStatus_eq]
    by_cases hks : k < sent.length
    · rw [List.getElem_append_left hks] at hd
      rw [List.take_append_of_le_length hks.le]
      rcases hse.ordered k hks d hd with h | ⟨hdb, hds⟩
      · exact .inl h
      · exact (Sent.dep_of_sent_or_db hxdb (.inr hdb)).imp_left (fun h => absurd h hds)
    · have hk' : k = sent.length := by simp at hk; omega
      subst hk'
      rw [List.getElem_append_right (Nat.le_refl _)] at hd
      simp only [Nat.sub_self, List.getElem_cons_zero] at hd
      rw [List.take_append_of_le_length (Nat.le_refl _), List.take_length]
      rw [← hl.header_eq i hi] at hd
      exact Sent.dep_of_sent_or_db hxdb (hdeps d hd)
  · simp only [SynchronizationGraphInner.setGraphStatus_eq, List.mem_append, List.mem_singleton,
      not_or]
    exact ⟨hse.genesis_not_sent, fun h => hxdb (h ▸ hr.genesis_ready)⟩

/-! ## 4. The three together -/

variable (hs) in
/-- The invariant between two calls, and at every turn of the propagation loops. -/
structure GraphInv (s : SynchronizationGraphInner) (sent : List Nat) : Prop where
  links : Links hs s
  ready : Ready s sent
  sent : Sent hs s sent

namespace GraphInv

/-- A status write that stays below `BLOCK_GRAPH_READY`, on a node below it. -/
theorem setGraphStatus_below (h : GraphInv hs s sent) (hi : i ∈ s.keys)
    (hbelow : (s.arena i).graphStatus ≠ .blockGraphReady) {st : GraphStatus}
    (hst : st ≠ .blockGraphReady) : GraphInv hs (s.setGraphStatus i st) sent where
  links := h.links.of_sameShape (.setGraphStatus s i st)
  ready := h.ready.setGraphStatus_below h.links hi hbelow hst
  sent := h.sent.mono (fun _ => by simp) rfl fun j hj hgr => by
    have hji : j ≠ i := by rintro rfl; exact hbelow hgr
    exact .inl ⟨hj, by simpa [hji] using hgr⟩

/-- `set_graph_ready` on an admissible node with its body. -/
theorem setGraphReady (h : GraphInv hs s sent) (hi : i ∈ s.keys)
    (ha : Admissible s i .blockGraphReady) (hb : (s.arena i).blockReady = true) :
    GraphInv hs (s.setGraphStatus i .blockGraphReady) (sent ++ [(s.arena i).blockHeader.hash]) where
  links := h.links.of_sameShape (.setGraphStatus s i _)
  ready := h.ready.setGraphReady h.links hi ha hb
  sent := Sent.setGraphReady h.links h.ready h.sent hi ha

/-- A body flag, cleared only below `BLOCK_GRAPH_READY`. -/
theorem setBlockReady (h : GraphInv hs s sent) {b : Bool}
    (hb : b = false → (s.arena i).graphStatus ≠ .blockGraphReady) :
    GraphInv hs (s.setBlockReady i b) sent where
  links := h.links.of_sameShape (.setBlockReady s i b)
  ready := h.ready.setBlockReady hb
  sent := h.sent.mono (fun _ => by simp) rfl fun j hj hgr => .inl ⟨hj, by simpa using hgr⟩

/-- A node with a reclaimed parent joins the old-era frontier. -/
theorem pushOldEraBlocksFrontier (h : GraphInv hs s sent) (hi : i ∈ s.keys)
    (hrec : (s.arena i).parentReclaimed = true) :
    GraphInv hs (s.pushOldEraBlocksFrontier i) sent where
  links := h.links.of_sameShape (.pushOldEraBlocksFrontier s i)
  ready := h.ready.pushOldEraBlocksFrontier hi hrec
  sent := h.sent.mono (fun _ => rfl) rfl fun _ hj hgr => .inl ⟨hj, hgr⟩

end GraphInv

end Mazze.Sync
