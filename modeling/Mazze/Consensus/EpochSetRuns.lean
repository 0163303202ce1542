import Mazze.Consensus.Checkpoint

/-!
# The epoch sets over every run

The callers of the epoch-set code, as the steps of the consensus state:

* the genesis, inserted into an empty state (`ConsensusGraphInner::new`);
* `insert` of a block (which computes its epoch set);
* `compute_blockset_in_own_view_of_epoch` on a block;
* `try_clear_blockset_in_own_view_of_epoch`;
* a set taken out and put back by `exchange_or_compute_blockset_in_own_view_of_epoch`;
* the epoch-set part of `check_correct_parent`, which takes a block's set out and, while
  it is out, takes out and puts back those of blocks of its parent chain;
* a change of the main chain;
* a checkpoint, `make_checkpoint_at`.

The code computes the epoch sets of the blocks of the current era only; each step that
computes one asks for such a block.

`EpochInv` holds in every reachable state (`Reachable.runInv`). One step at a time: a write
of some nodes' data keeps the graph (`SameShape`); a new block changes nothing below it
(`EpochInv.insertNode`); a take and a put move a set between the arena and `taken`
(`EpochInv.take`, `EpochInv.put`); a checkpoint cuts the arena (`EpochInv.makeCheckpointAt`).
In every reachable state the computation then stores exactly the epoch set of a block of the
era, with its order when the block has a parent (`computeBlocksetInOwnViewOfEpoch_exact`). A
legacy block keeps the order recorded before the checkpoint, which may list blocks the
checkpoint removed (`computeBlocksetInOwnViewOfEpoch_legacy_stale`).
-/

set_option autoImplicit false

namespace Mazze.Consensus

open Arena Reachability

/-! ## 1. The callers -/

namespace ConsensusGraphInner

/-- `ConsensusGraphInner::new` before the genesis is inserted (`mod.rs` L610-L647): no block,
    an empty main chain and an empty past-set cache. -/
def empty : ConsensusGraphInner := ⟨⟨∅, fun _ => .vacant⟩, [], ⟨[], 0⟩⟩

section Lca

variable (lca : Nat → Nat → Nat)

/-- The epoch-set part of `insert` (L1731-L1808): the node is added, then its epoch set is
    computed. -/
def insert (fuel : Nat) (s : ConsensusGraphInner) (index hash parent eraBlock : Nat)
    (referees : List Nat) : Except String ConsensusGraphInner :=
  computeBlocksetInOwnViewOfEpoch lca fuel (s.insertNode index hash parent eraBlock referees) index

/-- A set taken out and put back, as `recompute_metadata` (L2963-L2976),
    `set_epoch_number_in_epoch` (L3542-L3552) and `activate_block`
    (`consensus_new_block_handler.rs` L1352-L1364) do around their reads of it. -/
def exchangeRoundTrip (fuel : Nat) (s : ConsensusGraphInner) (index : Nat) :
    Except String ConsensusGraphInner := do
  let (s, blockset) ← exchangeOrComputeBlocksetInOwnViewOfEpoch lca fuel s index none
  let (s, _) ← exchangeOrComputeBlocksetInOwnViewOfEpoch lca fuel s index (some blockset)
  pure s

/-- The epoch-set part of `check_correct_parent(me)` (`consensus_new_block_handler.rs`
    L519-L540, L553-L556, L615-L618). `me`'s set is taken out. While it is out, the sets of
    the first `k` blocks of the parent chain, those that are partially invalid or pending,
    are taken out and put back in turn. Then `me`'s set is put back. -/
def checkCorrectParentBlocksets (fuel : Nat) (s : ConsensusGraphInner) (me k : Nat) :
    Except String ConsensusGraphInner := do
  let (s, blockset) ← exchangeOrComputeBlocksetInOwnViewOfEpoch lca fuel s me none
  let s ← ((List.range k).map (s.arena.ancestor · (s.arena.node me).parent)).foldlM
    (exchangeRoundTrip lca fuel) s
  let (s, _) ← exchangeOrComputeBlocksetInOwnViewOfEpoch lca fuel s me (some blockset)
  pure s

end Lca

end ConsensusGraphInner

/-! ## 2. Runs -/

/-- One step of the consensus state, as a caller of the epoch-set code takes it. The LCA is
    any that `LcaOk` allows, and the fuel is enough for the state; a step that fails is not
    taken. -/
inductive EpochStep : ConsensusGraphInner → ConsensusGraphInner → Prop where
  /-- `insert` of a block whose parent is a block of the era and whose referees are blocks,
      at the slab's free key. `on_new_block` inserts a block so when its parent is of the era
      (`consensus_new_block_handler.rs` L1705-L1709); its era block, an ancestor of the parent
      found through the weight tree, is not `NULL`. -/
  | insert {s s' : ConsensusGraphInner} (lca : Nat → Nat → Nat)
      (fuel index hash parent eraBlock : Nat) (referees : List Nat)
      (hindex : index ∉ s.arena.keys) (hnull : index ≠ NULL) (hparent : parent ∈ s.arena.keys)
      (hparentEra : s.arena.isLegacyBlock parent = false) (hera : eraBlock ≠ NULL)
      (hreferees : ∀ r ∈ referees, r ∈ s.arena.keys)
      (hlca : LcaOk (s.insertNode index hash parent eraBlock referees).arena lca)
      (hfuel : 2 * s.arena.keys.card + 3 ≤ fuel)
      (h : ConsensusGraphInner.insert lca fuel s index hash parent eraBlock referees = .ok s') :
      EpochStep s s'
  /-- `compute_blockset_in_own_view_of_epoch`, as `activate_block` (for a block of the era,
      L1110) and `get_or_compute_skipped_epoch_blocks` call it. -/
  | compute {s s' : ConsensusGraphInner} (lca : Nat → Nat → Nat) (fuel main : Nat)
      (hmain : main ∈ s.arena.keys) (hera : s.arena.isLegacyBlock main = false)
      (hlca : LcaOk s.arena lca)
      (hfuel : 2 * s.arena.keys.card + 1 ≤ fuel)
      (h : ConsensusGraphInner.computeBlocksetInOwnViewOfEpoch lca fuel s main = .ok s') :
      EpochStep s s'
  /-- `try_clear_blockset_in_own_view_of_epoch`. -/
  | tryClear {s : ConsensusGraphInner} (me : Nat) :
      EpochStep s (ConsensusGraphInner.tryClearBlocksetInOwnViewOfEpoch s me)
  /-- A set taken out and put back. -/
  | roundTrip {s s' : ConsensusGraphInner} (lca : Nat → Nat → Nat) (fuel index : Nat)
      (hindex : index ∈ s.arena.keys) (hera : s.arena.isLegacyBlock index = false)
      (hlca : LcaOk s.arena lca)
      (hfuel : 2 * s.arena.keys.card + 1 ≤ fuel)
      (h : ConsensusGraphInner.exchangeRoundTrip lca fuel s index = .ok s') : EpochStep s s'
  /-- The epoch-set part of `check_correct_parent`; the loop over the parent chain stops
      before `NULL`. -/
  | checkCorrectParent {s s' : ConsensusGraphInner} (lca : Nat → Nat → Nat) (fuel me k : Nat)
      (hme : me ∈ s.arena.keys) (hera : s.arena.isLegacyBlock me = false)
      (hk : ∀ j < k, s.arena.ancestor j (s.arena.node me).parent ≠ NULL)
      (hlca : LcaOk s.arena lca) (hfuel : 2 * s.arena.keys.card + 1 ≤ fuel)
      (h : ConsensusGraphInner.checkCorrectParentBlocksets lca fuel s me k = .ok s') :
      EpochStep s s'
  /-- The main chain moves (`activate_block` L1205-L1311); it never becomes empty. -/
  | setMainChain {s : ConsensusGraphInner} (mainChain : List Nat) (h : mainChain ≠ []) :
      EpochStep s { s with mainChain := mainChain }
  /-- `make_checkpoint_at(n)`, at a block whose subtree holds its own eras. -/
  | checkpoint {s s' : ConsensusGraphInner} (fuel n : Nat) (hn : n ∈ s.arena.keys)
      (heras : CheckpointEras s.arena fuel n) (hfuel : 2 * s.arena.keys.card + 1 ≤ fuel)
      (h : ConsensusGraphInner.makeCheckpointAt fuel s n = .ok s') : EpochStep s s'

/-- The states the consensus graph reaches from `new`. -/
inductive Reachable : ConsensusGraphInner → Prop where
  /-- `ConsensusGraphInner::new` (L649-L703): the era genesis is inserted without a parent
      or referees, then pushed on the main chain. -/
  | genesis {s : ConsensusGraphInner} (lca : Nat → Nat → Nat) (fuel g hash eraBlock : Nat)
      (hnull : g ≠ NULL) (hera : eraBlock ≠ NULL) (hfuel : 3 ≤ fuel)
      (h : ConsensusGraphInner.insert lca fuel .empty g hash NULL eraBlock [] = .ok s) :
      Reachable { s with mainChain := s.mainChain ++ [g] }
  | step {s s' : ConsensusGraphInner} : Reachable s → EpochStep s s' → Reachable s'

/-! ## 3. Writes of data only -/

/-- `a'` has the blocks and edges of `a`: the two differ in the nodes' data only. -/
structure SameShape (a a' : Arena) : Prop where
  keys : a'.keys = a.keys
  hash : ∀ x, (a'.node x).hash = (a.node x).hash
  parent : ∀ x, (a'.node x).parent = (a.node x).parent
  eraBlock : ∀ x, (a'.node x).eraBlock = (a.node x).eraBlock
  referees : ∀ x, (a'.node x).referees = (a.node x).referees

namespace SameShape

variable {a a' a'' : Arena}

theorem refl (a : Arena) : SameShape a a :=
  ⟨rfl, fun _ => rfl, fun _ => rfl, fun _ => rfl, fun _ => rfl⟩

theorem trans (h : SameShape a a') (h' : SameShape a' a'') : SameShape a a'' :=
  ⟨h'.keys.trans h.keys, fun x => (h'.hash x).trans (h.hash x),
    fun x => (h'.parent x).trans (h.parent x), fun x => (h'.eraBlock x).trans (h.eraBlock x),
    fun x => (h'.referees x).trans (h.referees x)⟩

theorem modifyData (a : Arena) (i : Nat) (f) : SameShape a (a.modifyData i f) :=
  ⟨rfl, fun x => by simp, fun x => by simp, fun x => by simp, fun x => by simp⟩

section

variable (h : SameShape a a')
include h

theorem isLegacyBlock_eq : a'.isLegacyBlock = a.isLegacyBlock := by
  funext x
  simp only [Arena.isLegacyBlock, h.eraBlock x]

theorem isAncestor_eq : a'.IsAncestor = a.IsAncestor := by
  have hp : (fun i => (a'.node i).parent) = fun i => (a.node i).parent := funext h.parent
  funext x y
  simp only [Arena.IsAncestor, Arena.ancestor, hp]

theorem lcaOk_iff {lca : Nat → Nat → Nat} : LcaOk a' lca ↔ LcaOk a lca := by
  simp only [LcaOk, h.keys, h.isAncestor_eq, h.isLegacyBlock_eq]

end

end SameShape

/-! ## 4. A new block -/

/-- The order recorded for `x` reads the epoch set of `x`, and the nodes of `x` and of its
    members; nothing else. -/
theorem EpochOrdered.congr {a a' : Arena} {x : Nat} {d : ConsensusGraphNodeData}
    (hes : ∀ y, a'.EpochSet x y ↔ a.EpochSet x y)
    (hnode : ∀ y, y = x ∨ a.EpochSet x y → a'.node y = a.node y) (h : EpochOrdered a x d) :
    EpochOrdered a' x d :=
  h.of_reads hes (fun y hy => by rw [hnode y (Or.inr hy), hnode x (Or.inl rfl)])
    (fun u hu v hv => by simpa [predecessorEdges, hnode u (Or.inr hu)] using hv)
    (fun y hy => by rw [hnode y hy])

theorem DataOk.congr {a a' : Arena} {x : Nat} {d : ConsensusGraphNodeData}
    (hes : ∀ y, a'.EpochSet x y ↔ a.EpochSet x y)
    (hnode : ∀ y, y = x ∨ a.EpochSet x y → a'.node y = a.node y) (h : DataOk a x d) :
    DataOk a' x d := by
  refine ⟨h.1, fun hc => ⟨?_, fun hp => ((h.2 hc).2 ?_).congr hes hnode⟩⟩
  · obtain ⟨hnd, hmem⟩ := (h.2 hc).1
    exact ⟨hnd, fun y => (hmem y).trans (hes y).symm⟩
  · rwa [hnode x (Or.inl rfl)] at hp

section InsertNode

variable {s : ConsensusGraphInner} {index hash parent eraBlock : Nat} {referees : List Nat}

theorem insertNode_node_self :
    (s.insertNode index hash parent eraBlock referees).arena.node index =
      ⟨hash, parent, eraBlock, referees, .new⟩ := by
  rw [ConsensusGraphInner.insertNode_node, if_pos rfl]

theorem insertNode_node_of_ne {x : Nat} (hx : x ≠ index) :
    (s.insertNode index hash parent eraBlock referees).arena.node x = s.arena.node x := by
  rw [ConsensusGraphInner.insertNode_node, if_neg hx]

theorem GraphOk.parentAndReferees_of_not_mem {a : Arena} (hg : GraphOk a) {x : Nat}
    (hx : x ∉ a.keys) : a.parentAndReferees x = [] := by
  simp [parentAndReferees, hg.vacant x hx]

/-- The blocks other than a free key are closed under the edges. -/
theorem GraphOk.closed_ne {a : Arena} (hg : GraphOk a) {index : Nat} (hindex : index ∉ a.keys) :
    Closed a.parentAndReferees (· ≠ index) := by
  intro x _ y hy
  by_cases hx : x ∈ a.keys
  · exact fun h' => hindex (h' ▸ hg.edges_keys x hx y hy)
  · simp [hg.parentAndReferees_of_not_mem hx] at hy

/-- **A new block changes no past but its own.** -/
theorem past_insertNode (hg : GraphOk s.arena) (hindex : index ∉ s.arena.keys) {x : Nat}
    (hx : x ≠ index) (y : Nat) :
    (s.insertNode index hash parent eraBlock referees).arena.Past x y ↔ s.arena.Past x y :=
  reach_congr (hg.closed_ne hindex)
    (fun z hz => by simp only [parentAndReferees, insertNode_node_of_ne hz]) hx

/-- A parent is a block or `NULL`, so never the free key. -/
theorem GraphOk.parent_ne_free {a : Arena} (hg : GraphOk a) {index : Nat}
    (hindex : index ∉ a.keys) (hnull : index ≠ NULL) (x : Nat) : (a.node x).parent ≠ index := by
  intro hp
  by_cases hx : x ∈ a.keys
  · by_cases hpn : (a.node x).parent = NULL
    · exact hnull (hp ▸ hpn)
    · exact hindex (hp ▸ hg.parent_mem hx hpn)
  · exact hnull (hp ▸ (hg.vacant x hx).1)

theorem epochSet_insertNode (hg : GraphOk s.arena) (hindex : index ∉ s.arena.keys)
    (hnull : index ≠ NULL) {x : Nat} (hx : x ≠ index) (y : Nat) :
    (s.insertNode index hash parent eraBlock referees).arena.EpochSet x y ↔
      s.arena.EpochSet x y := by
  simp only [EpochSet, insertNode_node_of_ne hx, past_insertNode hg hindex hx,
    past_insertNode hg hindex (hg.parent_ne_free hindex hnull x)]

theorem insertNode_isLegacyBlock_of_ne {x : Nat} (hx : x ≠ index) :
    (s.insertNode index hash parent eraBlock referees).arena.isLegacyBlock x =
      s.arena.isLegacyBlock x := by
  simp only [isLegacyBlock, insertNode_node_of_ne hx]

/-- **Inserting a block keeps the invariant.** Its parent is a block of the era, or it is the
    genesis, without a parent or referees; its set is not yet computed. -/
theorem EpochInv.insertNode (hinv : EpochInv [] s) (hindex : index ∉ s.arena.keys)
    (hnull : index ≠ NULL)
    (hparent : parent ∈ s.arena.keys ∧ s.arena.isLegacyBlock parent = false ∨
      parent = NULL ∧ referees = [])
    (hreferees : ∀ r ∈ referees, r ∈ s.arena.keys) :
    EpochInv [] (s.insertNode index hash parent eraBlock referees) := by
  have hg := hinv.graph
  -- the new node's edges lead to blocks
  have hedges : ∀ y ∈ (s.insertNode index hash parent eraBlock referees).arena.parentAndReferees
      index, y ∈ s.arena.keys := by
    intro y hy
    rw [parentAndReferees, insertNode_node_self, List.mem_append] at hy
    rcases hy with hy | hy
    · by_cases hpn : parent = NULL
      · simp [hpn] at hy
      · rw [if_neg hpn, List.mem_singleton] at hy
        rw [hy]
        exact (hparent.resolve_right fun h' => hpn h'.1).1
    · exact hreferees y hy
  have hold : ∀ x, x ≠ index →
      (s.insertNode index hash parent eraBlock referees).arena.parentAndReferees x =
        s.arena.parentAndReferees x := fun x hx => by
    simp only [parentAndReferees, insertNode_node_of_ne hx]
  refine ⟨⟨?_, ?_, ?_, ?_⟩, ?_, ?_, ?_, ?_, fun p hp => absurd hp List.not_mem_nil,
    List.nodup_nil⟩
  · simp [hnull.symm, hg.null_not_key]
  · intro x hx
    simp only [ConsensusGraphInner.insertNode_keys, Finset.mem_insert, not_or] at hx
    rw [insertNode_node_of_ne hx.1]
    exact hg.vacant x hx.2
  · intro x hx y hy
    simp only [ConsensusGraphInner.insertNode_keys, Finset.mem_insert] at hx ⊢
    rcases hx with rfl | hx
    · exact Or.inr (hedges y hy)
    · have hxi : x ≠ index := fun h' => hindex (h' ▸ hx)
      rw [hold x hxi] at hy
      exact Or.inr (hg.edges_keys x hx y hy)
  · -- the new block ranks above every block
    obtain ⟨rank, hrank⟩ := hg.ranked
    refine ⟨Function.update rank index (s.arena.keys.sup rank + 1), fun x y hy => ?_⟩
    by_cases hxi : x = index
    · subst hxi
      have hyk := hedges y hy
      have hyi : y ≠ x := fun h' => hindex (h' ▸ hyk)
      rw [Function.update_of_ne hyi, Function.update_self]
      exact Nat.lt_succ_of_le (Finset.le_sup hyk)
    · rw [hold x hxi] at hy
      have hyi : y ≠ index := hg.closed_ne hindex x hxi y hy
      rw [Function.update_of_ne hyi, Function.update_of_ne hxi]
      exact hrank x y hy
  · intro x hx hx' hp
    simp only [ConsensusGraphInner.insertNode_keys, Finset.mem_insert] at hx
    by_cases hxi : x = index
    · subst hxi
      rw [insertNode_node_self] at hp ⊢
      exact (hparent.resolve_left fun h' => hg.ne_null h'.1 hp).2
    · rw [insertNode_isLegacyBlock_of_ne hxi] at hx'
      rw [insertNode_node_of_ne hxi] at hp ⊢
      exact hinv.roots x (hx.resolve_left hxi) hx' hp
  · -- the parent of a block is never the new one, and the new block's parent is of the era
    intro x hx hx' hp
    simp only [ConsensusGraphInner.insertNode_keys, Finset.mem_insert] at hx
    by_cases hxi : x = index
    · subst hxi
      rw [insertNode_node_self] at hp ⊢
      obtain ⟨hpk, hpera⟩ := hparent.resolve_right fun h' => hp h'.1
      rw [insertNode_isLegacyBlock_of_ne fun h' => hindex (by rw [← h']; exact hpk)]
      exact hpera
    · rw [insertNode_isLegacyBlock_of_ne hxi] at hx'
      rw [insertNode_node_of_ne hxi] at hp ⊢
      rw [insertNode_isLegacyBlock_of_ne (hg.parent_ne_free hindex hnull x)]
      exact hinv.era_parent x (hx.resolve_left hxi) hx' hp
  · refine hinv.cache.mono fun k v hkv => ⟨?_, fun y => ?_⟩
    · simp [hkv.1]
    · rw [past_insertNode hg hindex (fun h' => hindex (h' ▸ hkv.1))]
      exact hkv.2 y
  · intro x hx _ hx'
    simp only [ConsensusGraphInner.insertNode_keys, Finset.mem_insert] at hx
    by_cases hxi : x = index
    · -- the new set is cleared and empty
      subst hxi
      rw [insertNode_node_self]
      exact ⟨fun _ => rfl, fun h' => absurd h' (by simp [ConsensusGraphNodeData.new])⟩
    · have hxk := hx.resolve_left hxi
      rw [insertNode_isLegacyBlock_of_ne hxi] at hx'
      rw [insertNode_node_of_ne hxi]
      refine (hinv.data x hxk (fun h' => absurd h' List.not_mem_nil) hx').congr
        (epochSet_insertNode hg hindex hnull hxi) fun y hy => insertNode_node_of_ne ?_
      rcases hy with rfl | hy
      · exact hxi
      · exact fun h' => hindex (h' ▸ hg.past_mem hxk hy.1)

end InsertNode

/-! ## 5. Taking a set out and putting it back -/

/-- **A take moves a computed set of the era from the arena to `taken`**, leaving it
    empty. -/
theorem EpochInv.take {taken : List (Nat × List Nat)} {s : ConsensusGraphInner}
    (hinv : EpochInv taken s) {i : Nat} (hi : i ∈ s.arena.keys)
    (hfree : i ∉ taken.map Prod.fst) (hera : s.arena.isLegacyBlock i = false)
    (hcl : (s.arena.node i).data.blocksetCleared = false) :
    EpochInv ((i, (s.arena.node i).data.blocksetInOwnViewOfEpoch) :: taken)
      (s.modifyData i fun d => { d with blocksetInOwnViewOfEpoch := [] }) where
  graph := by simpa using hinv.graph.modifyData i _
  roots := by simpa using hinv.roots
  era_parent := by simpa using hinv.era_parent
  cache := by simpa using hinv.cache
  data := by
    intro x hx hx' hxera
    have hxi : x ≠ i := fun h' => hx' (by simp [h'])
    simpa [modifyData_data_of_ne _ hxi] using
      hinv.data x (by simpa using hx) (fun h' => hx' (List.mem_cons_of_mem _ h'))
        (by simpa using hxera)
  taken_out := by
    intro p hp
    rcases List.mem_cons.mp hp with rfl | hp
    · obtain ⟨hrep, hord⟩ := (hinv.data i hi hfree hera).2 hcl
      exact ⟨by simpa using hi, by simpa using hera, by simpa using hcl, by simp,
        by simpa using hord, by simpa using hrep⟩
    · have hne : p.1 ≠ i := fun h' => hfree (h' ▸ List.mem_map_of_mem hp)
      simpa [modifyData_data_of_ne _ hne] using hinv.taken_out p hp
  taken_nodup := List.nodup_cons.mpr ⟨hfree, hinv.taken_nodup⟩

/-- **A put moves the set back**, and with it the block is in order again. -/
theorem EpochInv.put {taken : List (Nat × List Nat)} {s : ConsensusGraphInner} {i : Nat}
    {bs : List Nat} (hinv : EpochInv ((i, bs) :: taken) s) :
    EpochInv taken (s.modifyData i fun d => { d with blocksetInOwnViewOfEpoch := bs }) where
  graph := by simpa using hinv.graph.modifyData i _
  roots := by simpa using hinv.roots
  era_parent := by simpa using hinv.era_parent
  cache := by simpa using hinv.cache
  data := by
    intro x hx hx' hxera
    by_cases hxi : x = i
    · subst hxi
      obtain ⟨-, -, hcl, -, hord, hrep⟩ := hinv.taken_out (x, bs) List.mem_cons_self
      simp only [ConsensusGraphInner.modifyData_arena, dataOk_modifyData, modifyData_data_self]
      exact ⟨fun h' => absurd (hcl.symm.trans h') (by simp), fun _ => ⟨hrep, hord⟩⟩
    · simpa [modifyData_data_of_ne _ hxi] using
        hinv.data x (by simpa using hx) (by simp [hxi, hx']) (by simpa using hxera)
  taken_out := by
    intro p hp
    -- the block put back is taken once
    have hne : p.1 ≠ i := by
      intro h'
      have hmem := List.mem_map_of_mem (f := Prod.fst) hp
      rw [h'] at hmem
      exact (List.nodup_cons.mp hinv.taken_nodup).1 hmem
    simpa [modifyData_data_of_ne _ hne] using hinv.taken_out p (List.mem_cons_of_mem _ hp)
  taken_nodup := (List.nodup_cons.mp hinv.taken_nodup).2

/-- Computing a set only when it is cleared is what the computation does itself, so a take
    is a computation followed by the take. -/
theorem exchangeOrCompute_none_eq (lca : Nat → Nat → Nat) (fuel : Nat) (s : ConsensusGraphInner)
    (index : Nat) :
    ConsensusGraphInner.exchangeOrComputeBlocksetInOwnViewOfEpoch lca fuel s index none =
      ConsensusGraphInner.computeBlocksetInOwnViewOfEpoch lca fuel s index >>= fun s =>
        pure (s.modifyData index fun d => { d with blocksetInOwnViewOfEpoch := [] },
          (s.arena.node index).data.blocksetInOwnViewOfEpoch) := by
  simp only [ConsensusGraphInner.exchangeOrComputeBlocksetInOwnViewOfEpoch]
  split
  · rfl
  · rename_i hcl
    simp [ConsensusGraphInner.computeBlocksetInOwnViewOfEpoch, hcl]

section Exchange

variable (lca : Nat → Nat → Nat) {taken : List (Nat × List Nat)} {s : ConsensusGraphInner}

/-- **`exchange_or_compute_blockset_in_own_view_of_epoch(index, None)`** computes the set if
    needed and takes it out. -/
theorem exchange_take (hinv : EpochInv taken s) (hlca : LcaOk s.arena lca) {index : Nat}
    (hindex : index ∈ s.arena.keys) (hera : s.arena.isLegacyBlock index = false)
    (hfree : ∀ x, s.arena.IsAncestor x index → x ∉ taken.map Prod.fst)
    (hchain : (s.arena.node index).parent ≠ NULL → s.mainChain ≠ [])
    {fuel : Nat} (hfuel : 2 * s.arena.keys.card + 1 ≤ fuel) :
    ∃ s' bs, ConsensusGraphInner.exchangeOrComputeBlocksetInOwnViewOfEpoch lca fuel s index
        none = .ok (s', bs) ∧
      EpochInv ((index, bs) :: taken) s' ∧ SameShape s.arena s'.arena ∧
      s'.mainChain = s.mainChain := by
  obtain ⟨f, c, hcomp, hinv', hcl⟩ :=
    computeBlocksetInOwnViewOfEpoch_spec lca hinv hlca hindex hera hfree hchain hfuel
  refine ⟨_, _, ?_, hinv'.take (by simpa using hindex)
    (hfree index (IsAncestor.refl _ _)) (by simpa using hera) (by simpa using hcl), ?_, rfl⟩
  · rw [exchangeOrCompute_none_eq, hcomp]
    rfl
  · simp only [ConsensusGraphInner.modifyData_arena, modifyData_modifyData]
    exact SameShape.modifyData _ _ _

/-- **`exchange_or_compute_blockset_in_own_view_of_epoch(index, Some(blockset))`** puts the
    set taken back, and returns the empty one it held. -/
theorem exchange_put (fuel : Nat) {index : Nat} {bs : List Nat}
    (hinv : EpochInv ((index, bs) :: taken) s) :
    ∃ s', ConsensusGraphInner.exchangeOrComputeBlocksetInOwnViewOfEpoch lca fuel s index
        (some bs) = .ok (s', []) ∧
      EpochInv taken s' ∧ SameShape s.arena s'.arena ∧ s'.mainChain = s.mainChain := by
  obtain ⟨-, -, -, hempty, -, -⟩ := hinv.taken_out (index, bs) List.mem_cons_self
  refine ⟨_, ?_, hinv.put, by simpa using SameShape.modifyData _ _ _, rfl⟩
  simp only [ConsensusGraphInner.exchangeOrComputeBlocksetInOwnViewOfEpoch, hempty,
    Except.pure_eq_ok]

theorem exchangeRoundTrip_spec (hinv : EpochInv taken s) (hlca : LcaOk s.arena lca)
    {index : Nat} (hindex : index ∈ s.arena.keys) (hera : s.arena.isLegacyBlock index = false)
    (hfree : ∀ x, s.arena.IsAncestor x index → x ∉ taken.map Prod.fst)
    (hchain : s.mainChain ≠ []) {fuel : Nat} (hfuel : 2 * s.arena.keys.card + 1 ≤ fuel) :
    ∃ s', ConsensusGraphInner.exchangeRoundTrip lca fuel s index = .ok s' ∧
      EpochInv taken s' ∧ SameShape s.arena s'.arena ∧ s'.mainChain = s.mainChain := by
  obtain ⟨s₁, bs, h₁, hinv₁, hsh₁, hmc₁⟩ :=
    exchange_take lca hinv hlca hindex hera hfree (fun _ => hchain) hfuel
  obtain ⟨s₂, h₂, hinv₂, hsh₂, hmc₂⟩ := exchange_put lca fuel hinv₁
  refine ⟨s₂, ?_, hinv₂, hsh₁.trans hsh₂, hmc₂.trans hmc₁⟩
  simp only [ConsensusGraphInner.exchangeRoundTrip, h₁, h₂, Except.ok_bind, Except.pure_eq_ok]

/-- **The loop of `check_correct_parent`**: round trips on blocks of the era none of whose
    ancestors is taken keep the invariant and the graph. -/
theorem foldlM_exchangeRoundTrip (fuel : Nat) :
    ∀ (l : List Nat) {s : ConsensusGraphInner}, EpochInv taken s → LcaOk s.arena lca →
      s.mainChain ≠ [] → 2 * s.arena.keys.card + 1 ≤ fuel →
      (∀ p ∈ l, p ∈ s.arena.keys ∧ s.arena.isLegacyBlock p = false ∧
        ∀ x, s.arena.IsAncestor x p → x ∉ taken.map Prod.fst) →
      ∃ s', l.foldlM (ConsensusGraphInner.exchangeRoundTrip lca fuel) s = .ok s' ∧
        EpochInv taken s' ∧ SameShape s.arena s'.arena ∧ s'.mainChain = s.mainChain
  | [], s, hinv, _, _, _, _ => ⟨s, rfl, hinv, SameShape.refl _, rfl⟩
  | p :: l, s, hinv, hlca, hmc, hfuel, hl => by
    obtain ⟨hp, hpera, hpfree⟩ := hl p List.mem_cons_self
    obtain ⟨s₁, h₁, hinv₁, hsh₁, hmc₁⟩ :=
      exchangeRoundTrip_spec lca hinv hlca hp hpera hpfree hmc hfuel
    -- the round trip wrote data only, so the rest of the loop sees the same graph
    obtain ⟨s₂, h₂, hinv₂, hsh₂, hmc₂⟩ := foldlM_exchangeRoundTrip fuel l hinv₁
      (hsh₁.lcaOk_iff.mpr hlca) (hmc₁ ▸ hmc) (by rw [hsh₁.keys]; exact hfuel)
      (fun q hq => by
        rw [hsh₁.keys, hsh₁.isLegacyBlock_eq, hsh₁.isAncestor_eq]
        exact hl q (List.mem_cons_of_mem _ hq))
    refine ⟨s₂, ?_, hinv₂, hsh₁.trans hsh₂, hmc₂.trans hmc₁⟩
    simp only [List.foldlM_cons, h₁, Except.ok_bind, h₂]

/-- A block is not an ancestor of its parent. -/
theorem GraphOk.not_isAncestor_parent {a : Arena} (hg : GraphOk a) {x : Nat}
    (hp : (a.node x).parent ≠ NULL) : ¬ a.IsAncestor x (a.node x).parent := by
  rintro ⟨k, hk⟩
  have hx : x ≠ NULL := fun h' => hp (h' ▸ hg.null_parent)
  have hpast := past_ancestor k _ (by rw [hk]; exact hx) hg.null_parent
  rw [hk] at hpast
  exact hg.not_past_parent_self hp hpast

/-- **`check_correct_parent` puts every set back.** While `me`'s set is out, the blocks of its
    parent chain are searched; none of them has `me` as an ancestor. -/
theorem checkCorrectParentBlocksets_spec (hinv : EpochInv [] s) (hmc : s.mainChain ≠ [])
    (hlca : LcaOk s.arena lca) {me k : Nat} (hme : me ∈ s.arena.keys)
    (hera : s.arena.isLegacyBlock me = false)
    (hk : ∀ j < k, s.arena.ancestor j (s.arena.node me).parent ≠ NULL)
    {fuel : Nat} (hfuel : 2 * s.arena.keys.card + 1 ≤ fuel) :
    ∃ s', ConsensusGraphInner.checkCorrectParentBlocksets lca fuel s me k = .ok s' ∧
      EpochInv [] s' ∧ SameShape s.arena s'.arena ∧ s'.mainChain = s.mainChain := by
  obtain ⟨s₁, bs, h₁, hinv₁, hsh₁, hmc₁⟩ :=
    exchange_take lca hinv hlca hme hera (fun _ _ => List.not_mem_nil) (fun _ => hmc) hfuel
  -- the blocks of the parent chain, of the era, none of which descends from `me`
  have hl : ∀ p ∈ (List.range k).map (s₁.arena.ancestor · (s₁.arena.node me).parent),
      p ∈ s₁.arena.keys ∧ s₁.arena.isLegacyBlock p = false ∧
        ∀ x, s₁.arena.IsAncestor x p → x ∉ [(me, bs)].map Prod.fst := by
    intro p hp
    rw [List.mem_map] at hp
    obtain ⟨j, hj, rfl⟩ := hp
    rw [hsh₁.keys, hsh₁.isLegacyBlock_eq, hsh₁.isAncestor_eq]
    simp only [hsh₁.parent]
    rw [show s₁.arena.ancestor = s.arena.ancestor from by
      funext i x; simp only [Arena.ancestor, funext hsh₁.parent]]
    have hj' := List.mem_range.mp hj
    have hpn : (s.arena.node me).parent ≠ NULL := hk 0 (by omega)
    have hanc : s.arena.IsAncestor (s.arena.ancestor j (s.arena.node me).parent) me :=
      IsAncestor.of_parent ⟨j, rfl⟩
    refine ⟨hinv.graph.ancestor_mem (hinv.graph.parent_mem hme hpn) (hk j hj'),
      hinv.not_legacy_of_isAncestor hme hera hanc (hk j hj'), ?_⟩
    intro x hx hxme
    simp only [List.map_cons, List.map_nil, List.mem_singleton] at hxme
    subst hxme
    exact hinv.graph.not_isAncestor_parent hpn (hx.trans ⟨j, rfl⟩)
  obtain ⟨s₂, h₂, hinv₂, hsh₂, hmc₂⟩ := foldlM_exchangeRoundTrip lca fuel _ hinv₁
    (hsh₁.lcaOk_iff.mpr hlca) (hmc₁ ▸ hmc) (by rw [hsh₁.keys]; exact hfuel) hl
  obtain ⟨s₃, h₃, hinv₃, hsh₃, hmc₃⟩ := exchange_put lca fuel hinv₂
  refine ⟨s₃, ?_, hinv₃, hsh₁.trans (hsh₂.trans hsh₃), by rw [hmc₃, hmc₂, hmc₁]⟩
  simp only [ConsensusGraphInner.checkCorrectParentBlocksets, h₁, Except.ok_bind, h₂, h₃,
    Except.pure_eq_ok]

end Exchange

/-! ## 6. Every run -/

/-- For a block without a parent the computation asks for no LCA. -/
theorem computeBlocksetInOwnViewOfEpoch_root (lca lca' : Nat → Nat → Nat) (fuel : Nat)
    (s : ConsensusGraphInner) {main : Nat} (hp : (s.arena.node main).parent = NULL) :
    ConsensusGraphInner.computeBlocksetInOwnViewOfEpoch lca fuel s main =
      ConsensusGraphInner.computeBlocksetInOwnViewOfEpoch lca' fuel s main := by
  simp [ConsensusGraphInner.computeBlocksetInOwnViewOfEpoch, hp]

/-- A block is an ancestor of itself: the LCA of a block with itself. -/
theorem lcaOk_self {a : Arena} (hnull : NULL ∉ a.keys) : LcaOk a fun _ v => v :=
  fun _ v hv _ => ⟨fun h => hnull (h ▸ hv), IsAncestor.refl a v⟩

theorem epochInv_empty : EpochInv [] ConsensusGraphInner.empty where
  graph := ⟨by simp [ConsensusGraphInner.empty], fun _ _ => ⟨rfl, rfl⟩,
    fun _ hx => by simp [ConsensusGraphInner.empty] at hx,
    ⟨fun _ => 0, fun _ _ hy => by
      simp [parentAndReferees, ConsensusGraphInner.empty, ConsensusGraphNode.vacant] at hy⟩⟩
  roots _ hx := by simp [ConsensusGraphInner.empty] at hx
  era_parent _ hx := by simp [ConsensusGraphInner.empty] at hx
  cache := ⟨List.nodup_nil, fun _ h => absurd h List.not_mem_nil,
    fun _ h => absurd h List.not_mem_nil⟩
  data _ hx := by simp [ConsensusGraphInner.empty] at hx
  taken_out _ h := absurd h List.not_mem_nil
  taken_nodup := List.nodup_nil

theorem EpochInv.setMainChain {taken : List (Nat × List Nat)} {s : ConsensusGraphInner}
    (hinv : EpochInv taken s) (mainChain : List Nat) :
    EpochInv taken { s with mainChain := mainChain } :=
  ⟨hinv.graph, hinv.roots, hinv.era_parent, hinv.cache, hinv.data, hinv.taken_out,
    hinv.taken_nodup⟩

/-- A dropped set is cleared and empty. -/
theorem EpochInv.tryClear {s : ConsensusGraphInner} (hinv : EpochInv [] s) (me : Nat) :
    EpochInv [] (ConsensusGraphInner.tryClearBlocksetInOwnViewOfEpoch s me) := by
  unfold ConsensusGraphInner.tryClearBlocksetInOwnViewOfEpoch
  split
  · exact hinv.modifyData List.not_mem_nil _ hinv.cache
      fun _ => ⟨fun _ => rfl, fun h => absurd h (by simp)⟩
  · exact hinv

/-- What holds of every reachable state: the invariant with nothing taken, and a main
    chain. -/
structure RunInv (s : ConsensusGraphInner) : Prop where
  epoch : EpochInv [] s
  mainChain_ne : s.mainChain ≠ []

/-- **The step lemma.** Every step keeps the invariant. -/
theorem EpochStep.runInv {s s' : ConsensusGraphInner} (h : EpochStep s s') (hs : RunInv s) :
    RunInv s' := by
  have hfree : ∀ x : Nat, x ∉ ([] : List (Nat × List Nat)).map Prod.fst :=
    fun _ => List.not_mem_nil
  cases h with
  | insert lca fuel index hash parent eraBlock referees hindex hnull hparent hparentEra hera
      hreferees hlca hfuel h =>
    have hinv : EpochInv [] (s.insertNode index hash parent eraBlock referees) :=
      hs.epoch.insertNode hindex hnull (Or.inl ⟨hparent, hparentEra⟩) hreferees
    have hidx : index ∈ (s.insertNode index hash parent eraBlock referees).arena.keys := by simp
    have hidxEra :
        (s.insertNode index hash parent eraBlock referees).arena.isLegacyBlock index = false := by
      rw [isLegacyBlock_eq_false, insertNode_node_self]
      exact hera
    have hfuel' :
        2 * (s.insertNode index hash parent eraBlock referees).arena.keys.card + 1 ≤ fuel := by
      have hcard := Finset.card_insert_le index s.arena.keys
      simp only [ConsensusGraphInner.insertNode_keys]
      omega
    obtain ⟨f, c, hcomp, hinv', -⟩ := computeBlocksetInOwnViewOfEpoch_spec lca hinv hlca hidx
      hidxEra (fun x _ => hfree x) (fun _ => hs.mainChain_ne) hfuel'
    rw [ConsensusGraphInner.insert, hcomp] at h
    cases h
    exact ⟨hinv', hs.mainChain_ne⟩
  | compute lca fuel main hmain hera hlca hfuel h =>
    obtain ⟨f, c, hcomp, hinv', -⟩ := computeBlocksetInOwnViewOfEpoch_spec lca hs.epoch hlca
      hmain hera (fun x _ => hfree x) (fun _ => hs.mainChain_ne) hfuel
    rw [hcomp] at h
    cases h
    exact ⟨hinv', hs.mainChain_ne⟩
  | tryClear me =>
    refine ⟨hs.epoch.tryClear me, ?_⟩
    unfold ConsensusGraphInner.tryClearBlocksetInOwnViewOfEpoch
    split
    · exact hs.mainChain_ne
    · exact hs.mainChain_ne
  | roundTrip lca fuel index hindex hera hlca hfuel h =>
    obtain ⟨s₁, h₁, hinv₁, -, hmc₁⟩ := exchangeRoundTrip_spec lca hs.epoch hlca hindex hera
      (fun x _ => hfree x) hs.mainChain_ne hfuel
    rw [h₁] at h
    cases h
    exact ⟨hinv₁, hmc₁ ▸ hs.mainChain_ne⟩
  | checkCorrectParent lca fuel me k hme hera hk hlca hfuel h =>
    obtain ⟨s₁, h₁, hinv₁, -, hmc₁⟩ := checkCorrectParentBlocksets_spec lca hs.epoch
      hs.mainChain_ne hlca hme hera hk hfuel
    rw [h₁] at h
    cases h
    exact ⟨hinv₁, hmc₁ ▸ hs.mainChain_ne⟩
  | setMainChain mainChain h => exact ⟨hs.epoch.setMainChain mainChain, h⟩
  | checkpoint fuel n hn heras hfuel h =>
    obtain ⟨hinv', hmc⟩ := hs.epoch.makeCheckpointAt hn heras hfuel h
    exact ⟨hinv', hmc⟩

/-- **The run lemma.** Every reachable state keeps the invariant. -/
theorem Reachable.runInv {s : ConsensusGraphInner} (h : Reachable s) : RunInv s := by
  induction h with
  | genesis lca fuel g hash eraBlock hnull hera hfuel h =>
    have hinv : EpochInv [] (ConsensusGraphInner.empty.insertNode g hash NULL eraBlock []) :=
      epochInv_empty.insertNode (by simp [ConsensusGraphInner.empty]) hnull (Or.inr ⟨rfl, rfl⟩)
        fun _ h => absurd h List.not_mem_nil
    have hroot : ((ConsensusGraphInner.empty.insertNode g hash NULL eraBlock []).arena.node
        g).parent = NULL := by rw [insertNode_node_self]
    have hg : g ∈ (ConsensusGraphInner.empty.insertNode g hash NULL eraBlock []).arena.keys := by
      simp
    have hgEra :
        (ConsensusGraphInner.empty.insertNode g hash NULL eraBlock []).arena.isLegacyBlock g =
          false := by
      rw [isLegacyBlock_eq_false, insertNode_node_self]
      exact hera
    have hfuel' :
        2 * (ConsensusGraphInner.empty.insertNode g hash NULL eraBlock []).arena.keys.card + 1 ≤
          fuel := by
      simp [ConsensusGraphInner.empty]
      omega
    -- the genesis has no parent, so the LCA given does not matter
    obtain ⟨f, c, hcomp, hinv', -⟩ := computeBlocksetInOwnViewOfEpoch_spec (fun _ v => v) hinv
      (lcaOk_self hinv.graph.null_not_key) hg hgEra (fun _ _ => List.not_mem_nil)
      (fun hp => absurd hroot hp) hfuel'
    rw [ConsensusGraphInner.insert, computeBlocksetInOwnViewOfEpoch_root lca (fun _ v => v) _ _ hroot,
      hcomp] at h
    cases h
    exact ⟨hinv'.setMainChain _, by simp⟩
  | step _ hstep ih => exact hstep.runInv ih

/-- **In every reachable state, `compute_blockset_in_own_view_of_epoch(main)` stores exactly
    the epoch set of `main`**, `Past(main) \ Past(parent(main)) \ {main}`, for a block of the
    era with a parent, whichever LCA it is given. It records the order: the last
    `EPOCH_EXECUTED_BLOCK_BOUND` blocks of a topological order of the same-era part, then
    `main`, are kept for execution. The hashes of the rest of that order, then of the
    other-era part, are skipped. -/
theorem computeBlocksetInOwnViewOfEpoch_exact {s : ConsensusGraphInner} (hs : Reachable s)
    (lca : Nat → Nat → Nat) (hlca : LcaOk s.arena lca) {main : Nat}
    (hmain : main ∈ s.arena.keys) (hera : s.arena.isLegacyBlock main = false)
    (hp : (s.arena.node main).parent ≠ NULL) {fuel : Nat}
    (hfuel : 2 * s.arena.keys.card + 1 ≤ fuel) :
    ∃ s', ConsensusGraphInner.computeBlocksetInOwnViewOfEpoch lca fuel s main = .ok s' ∧
      Represents (s'.arena.node main).data.blocksetInOwnViewOfEpoch (s.arena.EpochSet main) ∧
      EpochOrdered s.arena main (s'.arena.node main).data := by
  have hrun := hs.runInv
  obtain ⟨f, c, hcomp, hinv', hcl⟩ := computeBlocksetInOwnViewOfEpoch_spec lca hrun.epoch hlca
    hmain hera (fun _ _ => List.not_mem_nil) (fun _ => hrun.mainChain_ne) hfuel
  -- `main` is computed, of the era and not taken, so its data is in order
  have hd := (hinv'.data main (by simpa using hmain) List.not_mem_nil (by simpa using hera)).2
    (by simpa using hcl)
  simp only [EpochSet_modifyData, epochOrdered_modifyData, modifyData_data_self,
    modifyData_parent] at hd
  exact ⟨_, hcomp, by simpa using hd.1, by simpa using hd.2 hp⟩

/-- An `insert` step with the LCA `fun _ v => v`, its side conditions and its success checked
    together, so that one evaluation of the state discharges them. -/
theorem Reachable.insert_of_checks {s : ConsensusGraphInner} (hs : Reachable s)
    (fuel index hash parent eraBlock : Nat) (referees : List Nat)
    (hchecks : (index ∉ s.arena.keys ∧ index ≠ NULL ∧ parent ∈ s.arena.keys ∧
        s.arena.isLegacyBlock parent = false ∧ eraBlock ≠ NULL ∧
        (∀ r ∈ referees, r ∈ s.arena.keys) ∧
        NULL ∉ (s.insertNode index hash parent eraBlock referees).arena.keys ∧
        2 * s.arena.keys.card + 3 ≤ fuel) ∧
      (ConsensusGraphInner.insert (fun _ v => v) fuel s index hash parent eraBlock
        referees).isOk = true) :
    Reachable ((ConsensusGraphInner.insert (fun _ v => v) fuel s index hash parent eraBlock
      referees).toOption.getD .empty) := by
  obtain ⟨⟨hindex, hnull, hparent, hparentEra, hera, hreferees, hlca, hfuel⟩, hok⟩ := hchecks
  exact hs.step (.insert _ fuel index hash parent eraBlock referees hindex hnull hparent hparentEra
    hera hreferees (lcaOk_self hlca) hfuel (Except.eq_ok_toOption_getD hok .empty))

/-- A checkpoint step whose side conditions and success are checked together. -/
theorem Reachable.checkpoint_of_checks {s : ConsensusGraphInner} (hs : Reachable s) (fuel n : Nat)
    (hchecks : (n ∈ s.arena.keys ∧ CheckpointEras s.arena fuel n ∧
        2 * s.arena.keys.card + 1 ≤ fuel) ∧
      (ConsensusGraphInner.makeCheckpointAt fuel s n).isOk = true) :
    Reachable ((ConsensusGraphInner.makeCheckpointAt fuel s n).toOption.getD .empty) := by
  obtain ⟨⟨hn, heras, hfuel⟩, hok⟩ := hchecks
  exact hs.step (.checkpoint fuel n hn heras hfuel (Except.eq_ok_toOption_getD hok .empty))

/-- The run of the two examples below, with the LCA `fun _ v => v`: the genesis `1`, in the
    era `1`; `2` on `1` and `3` on `2`, the main chain `1, 2, 3`; `4` on `1`, and `5` on `4`
    referring to `2`; then a checkpoint at `3`. The old era is `1` and `2`; `4` and `5` are
    kept as legacy blocks, `4` without a parent. -/
def checkpointExample : ConsensusGraphInner :=
  let s₁ := (ConsensusGraphInner.insert (fun _ v => v) 20 .empty 1 1 NULL 1 []).toOption.getD .empty
  let s₁ : ConsensusGraphInner := { s₁ with mainChain := s₁.mainChain ++ [1] }
  let s₂ := (ConsensusGraphInner.insert (fun _ v => v) 20 s₁ 2 2 1 1 []).toOption.getD .empty
  let s₃ := (ConsensusGraphInner.insert (fun _ v => v) 20 s₂ 3 3 2 1 []).toOption.getD .empty
  let s₄ := (ConsensusGraphInner.insert (fun _ v => v) 20 s₃ 4 4 1 1 []).toOption.getD .empty
  let s₅ := (ConsensusGraphInner.insert (fun _ v => v) 20 s₄ 5 5 4 1 [2]).toOption.getD .empty
  let s₆ : ConsensusGraphInner := { s₅ with mainChain := [1, 2, 3] }
  (ConsensusGraphInner.makeCheckpointAt 20 s₆ 3).toOption.getD .empty

theorem checkpointExample_reachable : Reachable checkpointExample := by
  -- each step's result is read off the run, which the kernel evaluates
  have r₁ := Reachable.genesis (fun _ v => v) 20 1 1 1 (by decide) (by decide) (by decide)
    (Except.eq_ok_toOption_getD (by decide +kernel) .empty)
  have r₂ := r₁.insert_of_checks 20 2 2 1 1 [] (by decide +kernel)
  have r₃ := r₂.insert_of_checks 20 3 3 2 1 [] (by decide +kernel)
  have r₄ := r₃.insert_of_checks 20 4 4 1 1 [] (by decide +kernel)
  have r₅ := r₄.insert_of_checks 20 5 5 4 1 [2] (by decide +kernel)
  have r₆ := r₅.step (EpochStep.setMainChain [1, 2, 3] (by simp))
  exact r₆.checkpoint_of_checks 20 3 (by decide +kernel)

/-- After the checkpoint, `6` on `3` referring to the legacy block `5`: its epoch set is the
    two legacy blocks `4` and `5`, both in another era. -/
theorem computeBlocksetInOwnViewOfEpoch_exact_checkpoint :
    ∃ s, Reachable s ∧ ∃ s',
      ConsensusGraphInner.computeBlocksetInOwnViewOfEpoch (fun _ v => v) 20 s 6 = .ok s' ∧
      (s'.arena.node 6).data.blocksetInOwnViewOfEpoch.toFinset = {4, 5} ∧
      Represents (s'.arena.node 6).data.blocksetInOwnViewOfEpoch (s.arena.EpochSet 6) ∧
      EpochOrdered s.arena 6 (s'.arena.node 6).data := by
  have r := checkpointExample_reachable.insert_of_checks 20 6 6 3 3 [5] (by decide +kernel)
  -- the facts the theorem and the answer need, in one evaluation of the state
  obtain ⟨hlca, hmain, hera, hp, hfuel, hcl, hset⟩ :
      let s := (ConsensusGraphInner.insert (fun _ v => v) 20 checkpointExample 6 6 3 3
        [5]).toOption.getD .empty
      NULL ∉ s.arena.keys ∧ 6 ∈ s.arena.keys ∧ s.arena.isLegacyBlock 6 = false ∧
        (s.arena.node 6).parent ≠ NULL ∧ 2 * s.arena.keys.card + 1 ≤ 20 ∧
        (s.arena.node 6).data.blocksetCleared = false ∧
        (s.arena.node 6).data.blocksetInOwnViewOfEpoch.toFinset = {4, 5} := by
    decide +kernel
  obtain ⟨s', hcomp, hrep, hord⟩ :=
    @computeBlocksetInOwnViewOfEpoch_exact _ r (fun _ v => v) (lcaOk_self hlca) 6 hmain hera hp 20 hfuel
  -- `6` was computed when it was inserted, so the computation leaves the state as it is
  have hs' := Except.ok.inj (hcomp.symm.trans
    (ConsensusGraphInner.computeBlocksetInOwnViewOfEpoch_of_not_cleared _ _ _ hcl))
  subst hs'
  exact ⟨_, r, _, hcomp, hset, hrep, hord⟩

/-- Every block the recorded order keeps for execution is a block. -/
theorem EpochOrdered.mem_keys {a : Arena} (hg : GraphOk a) {x : Nat} (hx : x ∈ a.keys)
    {d : ConsensusGraphNodeData} (h : EpochOrdered a x d) {y : Nat}
    (hy : y ∈ d.orderedExecutableEpochBlocks) : y ∈ a.keys := by
  obtain ⟨order, other, ⟨-, hmem⟩, -, -, hord, -⟩ := h
  rw [hord] at hy
  rcases List.mem_append.mp (List.mem_of_mem_drop hy) with hy | hy
  · exact hg.past_mem hx ((hmem y).mp hy).1.1
  · rw [List.mem_singleton.mp hy]
    exact hx

/-- **A legacy block keeps a stale order.** In the example run the checkpoint leaves `5`, a
    legacy block with a parent, with the order `2, 5` it recorded before; `2` was removed.
    Its set was not cleared, so the computation returns at once, and the order is not that
    of the epoch set. -/
theorem computeBlocksetInOwnViewOfEpoch_legacy_stale :
    ∃ s, Reachable s ∧ (s.arena.node 5).parent ≠ NULL ∧ s.arena.isLegacyBlock 5 = true ∧
      ConsensusGraphInner.computeBlocksetInOwnViewOfEpoch (fun _ v => v) 20 s 5 = .ok s ∧
      (s.arena.node 5).data.orderedExecutableEpochBlocks = [2, 5] ∧ 2 ∉ s.arena.keys ∧
      ¬ EpochOrdered s.arena 5 (s.arena.node 5).data := by
  obtain ⟨hord, h2, hp, hleg, hcl, h5⟩ :
      (checkpointExample.arena.node 5).data.orderedExecutableEpochBlocks = [2, 5] ∧
        2 ∉ checkpointExample.arena.keys ∧ (checkpointExample.arena.node 5).parent ≠ NULL ∧
        checkpointExample.arena.isLegacyBlock 5 = true ∧
        (checkpointExample.arena.node 5).data.blocksetCleared = false ∧
        5 ∈ checkpointExample.arena.keys := by
    decide +kernel
  refine ⟨checkpointExample, checkpointExample_reachable, hp, hleg,
    ConsensusGraphInner.computeBlocksetInOwnViewOfEpoch_of_not_cleared _ _ _ hcl,
    hord, h2, fun h => h2 (h.mem_keys checkpointExample_reachable.runInv.epoch.graph h5 ?_)⟩
  rw [hord]
  exact List.mem_cons_self

end Mazze.Consensus
