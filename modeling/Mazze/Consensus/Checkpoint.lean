import Mazze.Consensus.EpochSetSpec

/-!
# `make_checkpoint_at`: the arena cut at a new era genesis

`make_checkpoint_at(n)` (`consensus_new_block_handler.rs` L79-L300) moves the era genesis to
`n`, a block of the main chain. The past of `n`, `n` excluded, is the old era: a
breadth-first search from `n` along parents and referees marks it
(`compute_old_era_and_new_era_block_set`). Every other block is kept:

* a kept block keeps the referees and the members of its epoch set that are kept;
* a kept block outside the subtree of `n`, a legacy block, loses its era block, and its
  parent when that is not kept;
* `n` loses its parent;
* the past-set cache drops the old blocks (`intersect_update`), the arena removes them, and
  the main chain is cut at `n`.

The model keeps what the epoch-set code reads: the arena, the main chain and the cache. The
timer chain, the weights, the outlier cache and the terminals are not modelled. The search
over `children` that collects the subtree of `n` is read as a walk along parents
(`inSubtree`), since `children` lists the blocks whose parent a block is. The main chain is
cut at the position of `n` in it, which is the index `height_to_main_index` gives for the
height of `n`.

The old era is closed under edges (`OldEra.closed`). So the past of a kept block is its past
before, less the old era (`OldEra.past_checkpointArena`), and so is its epoch set
(`OldEra.epochSet_checkpointArena`). The invariant of the epoch-set data survives the
checkpoint (`EpochInv.makeCheckpointAt`) for the blocks of the new era. Legacy blocks leave
it: the code never computes their sets again, and it does not update the orders it recorded
for them.
-/

set_option autoImplicit false

namespace Mazze.Consensus

open Arena Reachability

/-! ## 1. The model -/

namespace ConsensusGraphInner

/-- `compute_old_era_and_new_era_block_set` (L83-L108), the old part: the blocks the search
    from `n` marks along parents and referees, `NULL` never. The loop's first turn pops `n`,
    which is not marked, and offers its edges; the rest of the loop is the library's search. -/
def computeOldEraBlockSet (fuel : Nat) (a : Arena) (n : Nat) : Option (Finset Nat) :=
  let stop := fun i => decide (i = NULL)
  let start := Bfs.offerAll stop (∅, []) (a.parentAndReferees n)
  (Bfs.search a.parentAndReferees stop fuel ⟨start.2, start.1, []⟩).map (·.1)

/-- `compute_old_era_and_new_era_block_set` (L109-L114), the new part: the blocks of the
    arena that are not old. -/
def newEraBlockSet (a : Arena) (old : Finset Nat) : Finset Nat := a.keys.filter (· ∉ old)

/-- Whether the walk from `v` along parents meets `n` within `fuel` steps: whether `v` is in
    the subtree of `n` that the search over `children` collects (L131-L139). -/
def inSubtree (a : Arena) (n : Nat) : Nat → Nat → Bool
  | 0, _ => false
  | fuel + 1, v => v == n || (v != NULL && inSubtree a n fuel (a.node v).parent)

/-- A kept node after the checkpoint (L145-L186, and `split_root(n)` at L271). Its referees
    and its epoch set keep the blocks of `newSet`. A legacy block loses its era block, and
    its parent when that is not kept; `n` loses its parent. -/
def checkpointNode (a : Arena) (newSet : Finset Nat) (n : Nat) (legacy : Bool) (v : Nat) :
    ConsensusGraphNode :=
  let node := a.node v
  { node with
    parent :=
      if legacy then (if node.parent ∈ newSet then node.parent else NULL)
      else if v = n then NULL else node.parent
    eraBlock := if legacy then NULL else node.eraBlock
    referees := node.referees.filter (· ∈ newSet)
    data := { node.data with
      blocksetInOwnViewOfEpoch := node.data.blocksetInOwnViewOfEpoch.filter (· ∈ newSet) } }

/-- The arena after the checkpoint (L145-L197): the new era block set as keys, each kept
    node as `checkpointNode` leaves it, the old blocks removed. -/
def checkpointArena (a : Arena) (fuel n : Nat) (old : Finset Nat) : Arena :=
  ⟨newEraBlockSet a old, fun v =>
    if v ∈ newEraBlockSet a old then
      checkpointNode a (newEraBlockSet a old) n (!inSubtree a n fuel v) v
    else .vacant⟩

/-- The epoch-set part of `make_checkpoint_at(n)` (L120-L300). `split_root` asserts that the
    block it cuts has a parent: a legacy block of the era, in the loop (L177-L179), and `n`,
    at the end (L271). The main chain is cut at `n` after its own assertion (L242-L243). -/
def makeCheckpointAt (fuel : Nat) (s : ConsensusGraphInner) (n : Nat) :
    Except String ConsensusGraphInner := do
  let old ← ofFuel (computeOldEraBlockSet fuel s.arena n)
  if ∃ v ∈ newEraBlockSet s.arena old, inSubtree s.arena n fuel v = false ∧
      s.arena.isLegacyBlock v = false ∧ (s.arena.node v).parent = NULL then
    throw "assertion failed: parent != NULL"
  let newEraMainIndex := s.mainChain.idxOf n
  if newEraMainIndex < s.mainChain.length then
    if (s.arena.node n).parent = NULL then throw "assertion failed: parent != NULL"
    else pure ⟨checkpointArena s.arena fuel n old, s.mainChain.drop newEraMainIndex,
      s.pastsetCache.intersectUpdate old⟩
  else throw "assertion failed: new_era_main_index < inner.main_chain.len()"

end ConsensusGraphInner

open ConsensusGraphInner

/-- **What a checkpoint that returns leaves.** The old era was computed; `n` is on the main
    chain and has a parent; the state is the cut arena, the main chain from `n` on, and the
    cache without the old era. -/
theorem makeCheckpointAt_eq {fuel n : Nat} {s s' : ConsensusGraphInner}
    (h : makeCheckpointAt fuel s n = .ok s') :
    ∃ old, computeOldEraBlockSet fuel s.arena n = some old ∧ n ∈ s.mainChain ∧
      (s.arena.node n).parent ≠ NULL ∧
      s' = ⟨checkpointArena s.arena fuel n old, s.mainChain.drop (s.mainChain.idxOf n),
        s.pastsetCache.intersectUpdate old⟩ := by
  unfold makeCheckpointAt at h
  cases hold : computeOldEraBlockSet fuel s.arena n with
  | none => simp [hold, ofFuel] at h
  | some old =>
    simp only [hold, ofFuel, Except.ok_bind] at h
    -- the legacy blocks of the era have parents, or the loop panics
    by_cases hleg : ∃ v ∈ newEraBlockSet s.arena old, inSubtree s.arena n fuel v = false ∧
        s.arena.isLegacyBlock v = false ∧ (s.arena.node v).parent = NULL
    · rw [if_pos hleg] at h
      cases h
    rw [if_neg hleg] at h
    by_cases hidx : s.mainChain.idxOf n < s.mainChain.length
    · by_cases hp : (s.arena.node n).parent = NULL
      · simp [hidx, hp] at h
      · simp only [hidx, hp, if_true, if_false, Except.pure_eq_ok, Except.ok.injEq] at h
        exact ⟨old, rfl, List.idxOf_lt_length_iff.mp hidx, hp, h.symm⟩
    · simp [hidx] at h

/-! ## 2. The old era -/

/-- Two blocks each in the other's past are one block: the arena has no cycle. -/
theorem GraphOk.past_antisymm {a : Arena} (hg : GraphOk a) {x y : Nat} (hxy : a.Past x y)
    (hyx : a.Past y x) : x = y := by
  obtain ⟨rank, hr⟩ := hg.ranked
  rcases Relation.ReflTransGen.cases_tail hxy with rfl | ⟨b, hxb, hby⟩
  · rfl
  · -- a last step lowers the rank strictly, the way back does not raise it
    have h₁ := hr b y hby
    have h₂ := hr.rank_le hxb
    have h₃ := hr.rank_le hyx
    omega

/-- Below `n` in its subtree, a block has a parent, and `n` is an ancestor of the parent. -/
theorem GraphOk.isAncestor_parent {a : Arena} (hg : GraphOk a) {n x : Nat} (hn : n ≠ NULL)
    (hanc : a.IsAncestor n x) (hxn : x ≠ n) :
    (a.node x).parent ≠ NULL ∧ a.IsAncestor n (a.node x).parent := by
  obtain ⟨k, hk⟩ := hanc
  cases k with
  | zero => exact (hxn hk).elim
  | succ k =>
    rw [ancestor_succ] at hk
    refine ⟨fun hp => hn ?_, ⟨k, hk⟩⟩
    rw [← hk, hp]
    exact hg.ancestor_null_le (Nat.zero_le k) rfl

theorem inSubtree_isAncestor (a : Arena) (n : Nat) :
    ∀ (fuel v : Nat), inSubtree a n fuel v = true → a.IsAncestor n v
  | 0, _, h => by simp [inSubtree] at h
  | fuel + 1, v, h => by
    simp only [inSubtree, Bool.or_eq_true, beq_iff_eq, Bool.and_eq_true, bne_iff_ne] at h
    rcases h with rfl | ⟨-, h⟩
    · exact IsAncestor.refl a v
    · exact (inSubtree_isAncestor a n fuel _ h).of_parent

/-- A walk along parents that meets `n` after `k` steps, before `NULL`, is found by
    `inSubtree` with more than `k` steps of fuel. -/
theorem inSubtree_of_ancestor (a : Arena) (n : Nat) :
    ∀ (k fuel v : Nat), k < fuel → (∀ j < k, a.ancestor j v ≠ NULL) → a.ancestor k v = n →
      inSubtree a n fuel v = true
  | _, 0, _, hk, _, _ => absurd hk (Nat.not_lt_zero _)
  | 0, fuel + 1, v, _, _, hv => by simp [inSubtree, ← hv]
  | k + 1, fuel + 1, v, hk, hnn, hv => by
    have hv0 : v ≠ NULL := hnn 0 (Nat.succ_pos k)
    have hrest := inSubtree_of_ancestor a n k fuel (a.node v).parent (by omega)
      (fun j hj => by rw [← ancestor_succ]; exact hnn (j + 1) (by omega))
      (by rw [← ancestor_succ]; exact hv)
    simp [inSubtree, hv0, hrest]

/-- **The subtree walk decides ancestry**, with fuel beyond the size of the arena. -/
theorem GraphOk.inSubtree_iff {a : Arena} (hg : GraphOk a) {n v : Nat} (hn : n ≠ NULL)
    (hv : v ∈ a.keys) {fuel : Nat} (hfuel : a.keys.card + 1 ≤ fuel) :
    inSubtree a n fuel v = true ↔ a.IsAncestor n v := by
  refine ⟨inSubtree_isAncestor a n fuel v, fun ⟨k, hk⟩ => ?_⟩
  -- the walk does not pass `NULL` before `n`, so it is no longer than the arena
  have hnn : ∀ j ≤ k, a.ancestor j v ≠ NULL := fun j hj hj0 =>
    hn (hk ▸ hg.ancestor_null_le hj hj0)
  have hlen := hg.chain_card_le hv k hnn
  exact inSubtree_of_ancestor a n k fuel v (by omega) (fun j hj => hnn j hj.le) hk

/-- **The search marks the past of `n`, `n` excluded**, given fuel beyond twice the arena. -/
theorem GraphOk.computeOldEraBlockSet_spec {a : Arena} (hg : GraphOk a) {n : Nat}
    (hn : n ∈ a.keys) {fuel : Nat} (hfuel : 2 * a.keys.card + 1 ≤ fuel) :
    ∃ old, computeOldEraBlockSet fuel a n = some old ∧ ∀ y, y ∈ old ↔ a.Past n y ∧ y ≠ n := by
  obtain ⟨rank, hrank⟩ := hg.ranked
  obtain ⟨fresh, hstart, hnd, hfresh⟩ :=
    Bfs.offerAll_spec (fun i => decide (i = NULL)) (a.parentAndReferees n) ∅ []
  -- the seeds are the edges of `n`: each is a block, so not `NULL`
  have hseed : ∀ q, q ∈ fresh ↔ q ∈ a.parentAndReferees n := fun q => by
    rw [hfresh q]
    refine ⟨fun h' => h'.1, fun hq => ⟨hq, ?_, Finset.notMem_empty q⟩⟩
    simpa using hg.ne_null (hg.edges_keys n hn q hq)
  obtain ⟨r, hrun, -, hout, hseen⟩ := Bfs.search_spec (fun i => decide (i = NULL))
    (U := a.keys) (fun y hy z hz => hg.edges_keys y hy z hz)
    (fun q hq => show q ∈ (∅ : Finset Nat) ∪ fresh.toFinset ∧ q ∈ a.keys from
      ⟨Finset.mem_union_right _ (List.mem_toFinset.mpr hq),
        hg.edges_keys n hn q ((hseed q).mp hq)⟩) hnd hfuel
  refine ⟨r.1, ?_, fun y => ?_⟩
  · simp only [computeOldEraBlockSet, hstart, List.nil_append, hrun, Option.map_some]
  rw [hseen, hout]
  simp only [Finset.empty_union, List.mem_toFinset]
  constructor
  · -- a marked block is reached from an edge of `n`, so it is not `n`
    have hpast : ∀ q ∈ fresh, a.Past q y → a.Past n y ∧ y ≠ n := fun q hq hqy =>
      ⟨reach_of_mem ((hseed q).mp hq) hqy,
        fun hyn => hrank.not_reach_of_mem ((hseed q).mp hq) (hyn ▸ hqy)⟩
    rintro (hy | ⟨q, hq, hpath⟩)
    · exact hpast y hy Relation.ReflTransGen.refl
    · exact hpast q hq hpath.reach
  · rintro ⟨hny, hyn⟩
    obtain ⟨q, hq, hqy⟩ := (reach_iff.mp hny).resolve_left (Ne.symm hyn)
    -- the search stops at `NULL`, which no seed reaches, and at the seeds themselves
    have hB : ∀ z, Bfs.Blocked (fun i => decide (i = NULL)) (∅ ∪ fresh.toFinset) z →
        False ∨ z = NULL ∨ z ∈ fresh := by
      intro z hz
      simp only [Bfs.Blocked, decide_eq_true_eq, Finset.empty_union, List.mem_toFinset] at hz
      exact Or.inr hz
    have hE : ∀ x ∈ fresh, ∀ z, z = NULL → ¬ Reach a.parentAndReferees x z := by
      rintro x hx z rfl hxz
      exact hg.ne_null (hg.past_mem (hg.edges_keys n hn x ((hseed x).mp hx)) hxz) rfl
    rcases reach_closed_or_reachAvoiding (C := fun _ => False) (fun _ h' => h'.elim) hB hE
      ((hseed q).mpr hq) hqy with h' | h'
    · exact h'.elim
    · exact Or.inr h'

@[simp] theorem mem_newEraBlockSet {a : Arena} {old : Finset Nat} {v : Nat} :
    v ∈ newEraBlockSet a old ↔ v ∈ a.keys ∧ v ∉ old := by
  simp [newEraBlockSet]

/-- The old era of a checkpoint at `n`: the past of `n`, `n` excluded, in an arena in good
    shape. -/
structure OldEra (a : Arena) (n : Nat) (old : Finset Nat) : Prop where
  graph : GraphOk a
  key : n ∈ a.keys
  mem_iff : ∀ y, y ∈ old ↔ a.Past n y ∧ y ≠ n

namespace OldEra

variable {a : Arena} {n : Nat} {old : Finset Nat} (h : OldEra a n old)
include h

theorem not_mem_self : n ∉ old := fun h' => ((h.mem_iff n).mp h').2 rfl

theorem n_mem_new : n ∈ newEraBlockSet a old := mem_newEraBlockSet.mpr ⟨h.key, h.not_mem_self⟩

/-- The past of an old block is old: a block past an old one and also `n` would close a
    cycle. -/
theorem mem_of_past {z y : Nat} (hz : z ∈ old) (hzy : a.Past z y) : y ∈ old := by
  obtain ⟨hnz, hzn⟩ := (h.mem_iff z).mp hz
  refine (h.mem_iff y).mpr ⟨hnz.trans hzy, fun hyn => hzn ?_⟩
  rw [hyn] at hzy
  exact (h.graph.past_antisymm hnz hzy).symm

/-- **No edge leaves the blocks that are not kept**: the old era and the vacant slots. -/
theorem closed : Closed a.parentAndReferees fun z => z ∉ newEraBlockSet a old := by
  intro z hz w hw hwnew
  rw [mem_newEraBlockSet, not_and_or, not_not] at hz
  rcases hz with hz | hz
  · simp [parentAndReferees, h.graph.vacant z hz] at hw
  · have hwold := h.mem_of_past hz (reach_of_mem hw Relation.ReflTransGen.refl)
    exact (mem_newEraBlockSet.mp hwnew).2 hwold

/-- The edges of `n` are old. -/
theorem mem_of_edge {w : Nat} (hw : w ∈ a.parentAndReferees n) : w ∈ old := by
  obtain ⟨rank, hrank⟩ := h.graph.ranked
  refine (h.mem_iff w).mpr ⟨reach_of_mem hw Relation.ReflTransGen.refl, fun hwn => ?_⟩
  rw [hwn] at hw
  exact absurd (hrank n n hw) (Nat.lt_irrefl _)

/-- The parent of `n` is not kept: it is old, or `NULL`. -/
theorem parent_not_mem : (a.node n).parent ∉ newEraBlockSet a old := by
  intro hmem
  have hpk := mem_newEraBlockSet.mp hmem
  exact hpk.2 (h.mem_of_edge (parent_mem_parentAndReferees (h.graph.ne_null hpk.1)))

/-- A block of the subtree of `n` is not old. -/
theorem not_mem_of_isAncestor {v : Nat} (hv : a.IsAncestor n v) : v ∉ old := by
  intro hvold
  obtain ⟨hnv, hvn⟩ := (h.mem_iff v).mp hvold
  obtain ⟨k, hk⟩ := hv
  have hpast := past_ancestor k v (by rw [hk]; exact h.graph.ne_null h.key) h.graph.null_parent
  rw [hk] at hpast
  exact hvn (h.graph.past_antisymm hnv hpast).symm

/-- Below `n` in its subtree, the epoch set of a block holds no old block: the past of its
    parent holds the past of `n`. -/
theorem epochSet_not_mem {x y : Nat} (hanc : a.IsAncestor n x) (hxn : x ≠ n)
    (hy : a.EpochSet x y) : y ∉ old := by
  intro hyold
  obtain ⟨hp, ⟨k, hk⟩⟩ := h.graph.isAncestor_parent (h.graph.ne_null h.key) hanc hxn
  have hpn : a.Past (a.node x).parent n := by
    have := past_ancestor k _ (by rw [hk]; exact h.graph.ne_null h.key) h.graph.null_parent
    rwa [hk] at this
  exact hy.2.1 (hpn.trans ((h.mem_iff y).mp hyold).1)

end OldEra

/-! ## 3. The cut arena -/

section CheckpointArena

variable {a : Arena} {fuel n : Nat} {old : Finset Nat}

@[simp] theorem checkpointArena_keys :
    (checkpointArena a fuel n old).keys = newEraBlockSet a old := rfl

theorem checkpointArena_node_of_mem {v : Nat} (hv : v ∈ newEraBlockSet a old) :
    (checkpointArena a fuel n old).node v =
      checkpointNode a (newEraBlockSet a old) n (!inSubtree a n fuel v) v := by
  simp only [checkpointArena, if_pos hv]

theorem checkpointArena_node_of_not_mem {v : Nat} (hv : v ∉ newEraBlockSet a old) :
    (checkpointArena a fuel n old).node v = .vacant := by
  simp only [checkpointArena, if_neg hv]

theorem hash_checkpointArena {v : Nat} (hv : v ∈ newEraBlockSet a old) :
    ((checkpointArena a fuel n old).node v).hash = (a.node v).hash := by
  rw [checkpointArena_node_of_mem hv]
  rfl

theorem eraBlock_checkpointArena {v : Nat} (hv : v ∈ newEraBlockSet a old) :
    ((checkpointArena a fuel n old).node v).eraBlock =
      if inSubtree a n fuel v then (a.node v).eraBlock else NULL := by
  rw [checkpointArena_node_of_mem hv]
  cases inSubtree a n fuel v <;> rfl

theorem referees_checkpointArena {v : Nat} (hv : v ∈ newEraBlockSet a old) :
    ((checkpointArena a fuel n old).node v).referees =
      (a.node v).referees.filter (· ∈ newEraBlockSet a old) := by
  rw [checkpointArena_node_of_mem hv]
  rfl

theorem data_checkpointArena {v : Nat} (hv : v ∈ newEraBlockSet a old) :
    ((checkpointArena a fuel n old).node v).data = { (a.node v).data with
      blocksetInOwnViewOfEpoch :=
        (a.node v).data.blocksetInOwnViewOfEpoch.filter (· ∈ newEraBlockSet a old) } := by
  rw [checkpointArena_node_of_mem hv]
  rfl

/-- A block the checkpoint keeps in the era is in the subtree of `n`. -/
theorem inSubtree_of_not_legacy {v : Nat} (hv : v ∈ newEraBlockSet a old)
    (hera : (checkpointArena a fuel n old).isLegacyBlock v = false) :
    inSubtree a n fuel v = true ∧ a.isLegacyBlock v = false := by
  rw [isLegacyBlock_eq_false, eraBlock_checkpointArena hv] at hera
  cases hsub : inSubtree a n fuel v
  · simp [hsub] at hera
  · simp only [hsub, if_true] at hera
    exact ⟨rfl, isLegacyBlock_eq_false.mpr hera⟩

end CheckpointArena

namespace OldEra

variable {a : Arena} {n : Nat} {old : Finset Nat} (h : OldEra a n old) {fuel : Nat}
  (hfuel : a.keys.card + 1 ≤ fuel)
include h hfuel

/-- A kept block below `n` in its subtree has a kept parent. -/
theorem parent_mem_of_inSubtree {v : Nat} (hv : v ∈ newEraBlockSet a old)
    (hsub : inSubtree a n fuel v = true) (hvn : v ≠ n) :
    (a.node v).parent ≠ NULL ∧ (a.node v).parent ∈ newEraBlockSet a old ∧
      inSubtree a n fuel (a.node v).parent = true := by
  have hvk := (mem_newEraBlockSet.mp hv).1
  have hn := h.graph.ne_null h.key
  obtain ⟨hp, hpanc⟩ := h.graph.isAncestor_parent hn
    ((h.graph.inSubtree_iff hn hvk hfuel).mp hsub) hvn
  have hpk := h.graph.parent_mem hvk hp
  exact ⟨hp, mem_newEraBlockSet.mpr ⟨hpk, h.not_mem_of_isAncestor hpanc⟩,
    (h.graph.inSubtree_iff hn hpk hfuel).mpr hpanc⟩

/-- **The parent of a kept block is kept, or it becomes `NULL`.** For a legacy block the code
    says so; `n`'s parent is old; and below `n` a parent is kept. -/
theorem parent_checkpointArena {v : Nat} (hv : v ∈ newEraBlockSet a old) :
    ((checkpointArena a fuel n old).node v).parent =
      if (a.node v).parent ∈ newEraBlockSet a old then (a.node v).parent else NULL := by
  rw [checkpointArena_node_of_mem hv]
  cases hsub : inSubtree a n fuel v
  · rfl
  · show (if v = n then NULL else (a.node v).parent) = _
    by_cases hvn : v = n
    · subst hvn
      rw [if_pos rfl, if_neg h.parent_not_mem]
    · obtain ⟨-, hpmem, -⟩ := h.parent_mem_of_inSubtree hfuel hv hsub hvn
      rw [if_neg hvn, if_pos hpmem]

/-- `n` has no parent after the checkpoint. -/
theorem parent_checkpointArena_self : ((checkpointArena a fuel n old).node n).parent = NULL := by
  rw [h.parent_checkpointArena hfuel h.n_mem_new, if_neg h.parent_not_mem]

/-- **The edges of a kept block are its edges to kept blocks.** -/
theorem mem_parentAndReferees_checkpointArena {v w : Nat} (hv : v ∈ newEraBlockSet a old) :
    w ∈ (checkpointArena a fuel n old).parentAndReferees v ↔
      w ∈ a.parentAndReferees v ∧ w ∈ newEraBlockSet a old := by
  have hnull : NULL ∉ newEraBlockSet a old := fun h' =>
    h.graph.null_not_key (mem_newEraBlockSet.mp h').1
  simp only [parentAndReferees, h.parent_checkpointArena hfuel hv,
    referees_checkpointArena hv, List.mem_append, List.mem_filter, decide_eq_true_eq]
  by_cases hpmem : (a.node v).parent ∈ newEraBlockSet a old
  · have hp : (a.node v).parent ≠ NULL := fun h' => hnull (h' ▸ hpmem)
    simp only [if_pos hpmem, if_neg hp, List.mem_singleton]
    constructor
    · rintro (rfl | ⟨hw, hwm⟩)
      · exact ⟨Or.inl rfl, hpmem⟩
      · exact ⟨Or.inr hw, hwm⟩
    · rintro ⟨rfl | hw, hwm⟩
      · exact Or.inl rfl
      · exact Or.inr ⟨hw, hwm⟩
  · simp only [if_neg hpmem, ↓reduceIte, List.not_mem_nil, false_or]
    constructor
    · rintro ⟨hw, hwm⟩
      exact ⟨Or.inr hw, hwm⟩
    · rintro ⟨hw | hw, hwm⟩
      · -- the parent is not kept, so it is not `w`
        split at hw
        · exact absurd hw List.not_mem_nil
        · rw [List.mem_singleton] at hw
          exact absurd (hw ▸ hwm) hpmem
      · exact ⟨hw, hwm⟩

theorem edges_checkpointArena_subset (v w : Nat)
    (hw : w ∈ (checkpointArena a fuel n old).parentAndReferees v) :
    w ∈ a.parentAndReferees v ∧ w ∈ newEraBlockSet a old := by
  by_cases hv : v ∈ newEraBlockSet a old
  · exact (h.mem_parentAndReferees_checkpointArena hfuel hv).mp hw
  · simp [parentAndReferees, checkpointArena_node_of_not_mem hv, ConsensusGraphNode.vacant] at hw

/-- **The past of a kept block is its past less the old era.** The old era is closed, so a
    path that ends at a kept block never leaves the kept blocks. -/
theorem past_checkpointArena {x : Nat} (hx : x ∈ newEraBlockSet a old) (y : Nat) :
    (checkpointArena a fuel n old).Past x y ↔ a.Past x y ∧ y ∈ newEraBlockSet a old :=
  reach_restrict_iff h.closed (fun _ hz _ => h.mem_parentAndReferees_checkpointArena hfuel hz) hx

theorem graphOk_checkpointArena : GraphOk (checkpointArena a fuel n old) where
  null_not_key h' := h.graph.null_not_key (mem_newEraBlockSet.mp h').1
  vacant x hx := by
    rw [checkpointArena_node_of_not_mem hx]
    exact ⟨rfl, rfl⟩
  edges_keys x _ y hy := (h.edges_checkpointArena_subset hfuel x y hy).2
  ranked := by
    obtain ⟨rank, hrank⟩ := h.graph.ranked
    exact ⟨rank, fun x y hy => hrank x y (h.edges_checkpointArena_subset hfuel x y hy).1⟩

/-- **The epoch set of a kept block is its epoch set less the old era.** When the parent was
    old it becomes `NULL`; the past of an old parent holds no kept block. -/
theorem epochSet_checkpointArena {x : Nat} (hx : x ∈ newEraBlockSet a old) (y : Nat) :
    (checkpointArena a fuel n old).EpochSet x y ↔
      a.EpochSet x y ∧ y ∈ newEraBlockSet a old := by
  have hg' := h.graphOk_checkpointArena hfuel
  simp only [EpochSet, h.parent_checkpointArena hfuel hx, h.past_checkpointArena hfuel hx]
  split_ifs with hpmem
  · rw [h.past_checkpointArena hfuel hpmem]
    tauto
  · -- the past of `NULL` is `NULL`, which is not kept; the past of an old parent is old
    have hnotpast : y ∈ newEraBlockSet a old → ¬ a.Past (a.node x).parent y := by
      intro hy hpy
      by_cases hp : (a.node x).parent = NULL
      · rw [hp] at hpy
        exact hg'.null_not_key (h.graph.past_null hpy ▸ hy)
      · have hpold : (a.node x).parent ∈ old := by
          have := mem_newEraBlockSet.not.mp hpmem
          push Not at this
          exact this (h.graph.parent_mem (mem_newEraBlockSet.mp hx).1 hp)
        exact (mem_newEraBlockSet.mp hy).2 (h.mem_of_past hpold hpy)
    have hnull : ∀ y, (checkpointArena a fuel n old).Past NULL y → y = NULL :=
      fun y hy => hg'.past_null hy
    constructor
    · rintro ⟨⟨hxy, hy⟩, -, hyx⟩
      exact ⟨⟨hxy, hnotpast hy, hyx⟩, hy⟩
    · rintro ⟨⟨hxy, -, hyx⟩, hy⟩
      refine ⟨⟨hxy, hy⟩, fun hny => hg'.null_not_key ?_, hyx⟩
      rw [← hnull y hny]
      exact hy

end OldEra

/-! ## 4. The invariant survives the checkpoint -/

/-- What a checkpoint at `n` needs of the eras: no block that the checkpoint makes legacy
    shares an era with a block of the era below `n` in its subtree. The code forms a
    checkpoint at an era genesis (`should_form_checkpoint_at`), and the era block of a block
    below it is an ancestor at or above its height (`get_era_genesis_block_with_parent`),
    so in its subtree. -/
def CheckpointEras (a : Arena) (fuel n : Nat) : Prop :=
  ∀ x ∈ a.keys, ∀ y ∈ a.keys, inSubtree a n fuel x = true → x ≠ n →
    a.isLegacyBlock x = false → inSubtree a n fuel y = false →
      (a.node y).eraBlock ≠ (a.node x).eraBlock

instance (a : Arena) (fuel n : Nat) : Decidable (CheckpointEras a fuel n) :=
  inferInstanceAs (Decidable (∀ x ∈ a.keys, ∀ y ∈ a.keys, inSubtree a n fuel x = true →
    x ≠ n → a.isLegacyBlock x = false → inSubtree a n fuel y = false →
      (a.node y).eraBlock ≠ (a.node x).eraBlock))

/-- A list of the epoch set, less the old era, lists the new epoch set. -/
theorem Represents.filter_new {l : List Nat} {P Q : Nat → Prop} {S : Finset Nat}
    (hl : Represents l P) (hPQ : ∀ y, Q y ↔ P y ∧ y ∈ S) :
    Represents (l.filter (· ∈ S)) Q :=
  ⟨hl.1.filter _, fun y => by rw [List.mem_filter, hl.2 y, hPQ y, decide_eq_true_iff]⟩

/-- **The order of a block below `n` survives the checkpoint.** Its epoch set is all kept,
    its era block stays, and a legacy member, whose era block becomes `NULL`, was in another
    era already. -/
theorem OldEra.epochOrdered_checkpointArena {a : Arena} {n : Nat} {old : Finset Nat}
    (h : OldEra a n old) {fuel : Nat} (hfuel : a.keys.card + 1 ≤ fuel)
    (heras : CheckpointEras a fuel n) {x : Nat} (hx : x ∈ newEraBlockSet a old)
    (hsub : inSubtree a n fuel x = true) (hxn : x ≠ n) (hera : a.isLegacyBlock x = false)
    {d : ConsensusGraphNodeData} (hord : EpochOrdered a x d) :
    EpochOrdered (checkpointArena a fuel n old) x d := by
  have hxk := (mem_newEraBlockSet.mp hx).1
  have hanc := (h.graph.inSubtree_iff (h.graph.ne_null h.key) hxk hfuel).mp hsub
  -- the members of the epoch set are kept
  have hkept : ∀ y, a.EpochSet x y → y ∈ newEraBlockSet a old := fun y hy =>
    mem_newEraBlockSet.mpr ⟨h.graph.past_mem hxk hy.1, h.epochSet_not_mem hanc hxn hy⟩
  refine hord.of_reads (fun y => ?_) (fun y hy => ?_) (fun u _ v hv => ?_) (fun y hy => ?_)
  · rw [h.epochSet_checkpointArena hfuel hx]
    exact ⟨fun h' => h'.1, fun h' => ⟨h', hkept y h'⟩⟩
  · rw [eraBlock_checkpointArena (hkept y hy), eraBlock_checkpointArena hx, hsub, if_pos rfl]
    cases hy' : inSubtree a n fuel y
    · -- a legacy member: `NULL` is not the era of `x`, and its old era was not either
      have hne := heras x hxk y (h.graph.past_mem hxk hy.1) hsub hxn hera hy'
      rw [isLegacyBlock_eq_false] at hera
      simp only [Bool.false_eq_true, if_false]
      exact ⟨fun h' => absurd h'.symm hera, fun h' => absurd h' hne⟩
    · rfl
  · rw [mem_predecessorEdges] at hv ⊢
    exact (h.edges_checkpointArena_subset hfuel u v hv).1
  · rcases hy with rfl | hy
    · exact hash_checkpointArena hx
    · exact hash_checkpointArena (hkept y hy)

/-- The cache without the old era holds the pasts of the new arena. -/
theorem OldEra.pastCached_intersectUpdate {a : Arena} {n : Nat} {old : Finset Nat}
    (h : OldEra a n old) {fuel : Nat} (hfuel : a.keys.card + 1 ≤ fuel) {c : PastSetCache}
    (hc : c.Good (PastCached a)) :
    (c.intersectUpdate old).Good (PastCached (checkpointArena a fuel n old)) := by
  refine hc.intersectUpdate old fun k v ⟨hk, hv⟩ hkold => ?_
  have hknew : k ∈ newEraBlockSet a old := mem_newEraBlockSet.mpr ⟨hk, hkold⟩
  refine ⟨hknew, fun y => ?_⟩
  rw [Finset.mem_sdiff, hv, h.past_checkpointArena hfuel hknew, mem_newEraBlockSet]
  exact ⟨fun ⟨hy, hyo⟩ => ⟨hy, h.graph.past_mem hk hy, hyo⟩,
    fun ⟨hy, _, hyo⟩ => ⟨hy, hyo⟩⟩

/-- **The invariant of the epoch-set data survives a checkpoint**, and the main chain keeps a
    block. The checkpoint is at a block `n` whose subtree holds its own eras
    (`CheckpointEras`), with fuel beyond twice the arena. -/
theorem EpochInv.makeCheckpointAt {s s' : ConsensusGraphInner} (hinv : EpochInv [] s)
    {n fuel : Nat} (hn : n ∈ s.arena.keys) (heras : CheckpointEras s.arena fuel n)
    (hfuel : 2 * s.arena.keys.card + 1 ≤ fuel)
    (h : ConsensusGraphInner.makeCheckpointAt fuel s n = .ok s') :
    EpochInv [] s' ∧ s'.mainChain ≠ [] := by
  obtain ⟨old, hcomp, hmain, -, rfl⟩ := makeCheckpointAt_eq h
  obtain ⟨old', hcomp', hold⟩ := hinv.graph.computeOldEraBlockSet_spec hn hfuel
  rw [hcomp] at hcomp'
  cases hcomp'
  have hoe : OldEra s.arena n old := ⟨hinv.graph, hn, hold⟩
  have hfuel' : s.arena.keys.card + 1 ≤ fuel := by omega
  refine ⟨⟨hoe.graphOk_checkpointArena hfuel', ?_, ?_,
    hoe.pastCached_intersectUpdate hfuel' hinv.cache, ?_, fun p hp => absurd hp List.not_mem_nil,
    List.nodup_nil⟩, ?_⟩
  · -- only `n` loses its parent in the era, and its referees are all old
    intro x hx hera hp
    obtain ⟨hsub, -⟩ := inSubtree_of_not_legacy hx hera
    by_cases hxn : x = n
    · subst hxn
      rw [referees_checkpointArena hx, List.filter_eq_nil_iff]
      intro r hr hrnew
      exact (mem_newEraBlockSet.mp (of_decide_eq_true hrnew)).2
        (hoe.mem_of_edge (referee_mem_parentAndReferees hr))
    · obtain ⟨hpn, hpmem, -⟩ := hoe.parent_mem_of_inSubtree hfuel' hx hsub hxn
      rw [hoe.parent_checkpointArena hfuel' hx, if_pos hpmem] at hp
      exact absurd hp hpn
  · -- below `n` the parent stays, in the subtree and in the era
    intro x hx hera hp
    obtain ⟨hsub, hxera⟩ := inSubtree_of_not_legacy hx hera
    have hxn : x ≠ n := by
      rintro rfl
      exact hp (hoe.parent_checkpointArena_self hfuel')
    obtain ⟨hpn, hpmem, hpsub⟩ := hoe.parent_mem_of_inSubtree hfuel' hx hsub hxn
    rw [hoe.parent_checkpointArena hfuel' hx, if_pos hpmem, isLegacyBlock_eq_false,
      eraBlock_checkpointArena hpmem, hpsub, if_pos rfl, ← isLegacyBlock_eq_false]
    exact hinv.era_parent x (mem_newEraBlockSet.mp hx).1 hxera hpn
  · -- a kept set of the era is the new epoch set, with its order when a parent remains
    intro x hx _ hera
    obtain ⟨hsub, hxera⟩ := inSubtree_of_not_legacy hx hera
    have hxk := (mem_newEraBlockSet.mp hx).1
    obtain ⟨hcl, hrest⟩ := hinv.data x hxk List.not_mem_nil hxera
    rw [data_checkpointArena hx]
    refine ⟨fun hc => ?_, fun hc => ?_⟩
    · simp [hcl hc]
    · obtain ⟨hrep, hord⟩ := hrest hc
      refine ⟨hrep.filter_new (hoe.epochSet_checkpointArena hfuel' hx), fun hp => ?_⟩
      have hxn : x ≠ n := by
        rintro rfl
        exact hp (hoe.parent_checkpointArena_self hfuel')
      obtain ⟨hpn, -, -⟩ := hoe.parent_mem_of_inSubtree hfuel' hx hsub hxn
      exact hoe.epochOrdered_checkpointArena hfuel' heras hx hsub hxn hxera (hord hpn)
  · -- the main chain from `n` on holds `n`
    simp only [ne_eq, List.drop_eq_nil_iff, not_le]
    exact List.idxOf_lt_length_iff.mpr hmain

end Mazze.Consensus
