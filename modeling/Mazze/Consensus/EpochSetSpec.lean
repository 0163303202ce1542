import Mazze.Consensus.EpochSet

/-!
# The epoch set is computed exactly

The specification of `Consensus.EpochSet`. It rests on an invariant of the consensus
state, `EpochInv`, which has three parts:

* the arena is a finite DAG whose edges stay among its keys (`GraphOk`);
* every cached past set is the past of its key;
* every stored epoch set that is not cleared is the block's epoch set.

The one exception is a block without a parent, whose set need only lie in its past.
`taken` lists the sets that `exchange_or_compute_blockset_in_own_view_of_epoch` has taken
out and not yet put back.

From the invariant, each piece of the computation is specified in turn:

* the parent walks (`pathToLca_eq`, `pathToCached_eq`);
* one ancestor of the incremental computation (`visitAncestor_of_ne`,
  `visitAncestor_main`) and the fold over the path (`foldlM_visitAncestor`);
* `compute_pastset_brutal` (`computePastsetBrutal_spec`);
* the cache step (`cachePastset_spec`), the incremental step (`impl_spec`), and the
  ordering (`orderEpochBlocks_spec`).

Together they give the set `compute_blockset_in_own_view_of_epoch` stores: exactly
`EpochSet main`, whichever LCA with the main tip it starts from
(`computeBlocksetInOwnViewOfEpoch_spec`).
-/

set_option autoImplicit false

namespace Mazze.Consensus

open Arena Reachability

/-! ## 1. The shape of the arena -/

/-- The past of `p`, empty for `NULL`: the set `compute_pastset_brutal` starts from below its
    first ancestor. -/
def PastSet (a : Arena) (p y : Nat) : Prop := p ≠ NULL ∧ a.Past p y

theorem closed_pastSet (a : Arena) (p : Nat) :
    Closed a.parentAndReferees (PastSet a p) :=
  fun _ hz _ hw => ⟨hz.1, closed_past a p _ hz.2 _ hw⟩

/-- The arena is a finite DAG: `NULL` is no key, a vacant slot has no edges, the edges of a
    block lead to blocks, and a rank falls along every edge. -/
structure GraphOk (a : Arena) : Prop where
  null_not_key : NULL ∉ a.keys
  vacant : ∀ x ∉ a.keys, (a.node x).parent = NULL ∧ (a.node x).referees = []
  edges_keys : ∀ x ∈ a.keys, ∀ y ∈ a.parentAndReferees x, y ∈ a.keys
  ranked : ∃ rank, Ranked a.parentAndReferees rank

namespace GraphOk

variable {a : Arena} (h : GraphOk a)
include h

theorem parent_mem {x : Nat} (hx : x ∈ a.keys) (hp : (a.node x).parent ≠ NULL) :
    (a.node x).parent ∈ a.keys :=
  h.edges_keys x hx _ (parent_mem_parentAndReferees hp)

theorem referee_mem {x r : Nat} (hx : x ∈ a.keys) (hr : r ∈ (a.node x).referees) :
    r ∈ a.keys :=
  h.edges_keys x hx _ (referee_mem_parentAndReferees hr)

theorem null_parent : (a.node NULL).parent = NULL := (h.vacant NULL h.null_not_key).1

theorem ne_null {x : Nat} (hx : x ∈ a.keys) : x ≠ NULL := fun hn => h.null_not_key (hn ▸ hx)

/-- `NULL` has no edges, so its past is itself. -/
theorem past_null {y : Nat} (hy : a.Past NULL y) : y = NULL := by
  rcases past_iff.mp hy with h' | ⟨hp, -⟩ | ⟨r, hr, -⟩
  · exact h'.symm
  · exact absurd h.null_parent hp
  · simp [(h.vacant NULL h.null_not_key).2] at hr

theorem past_mem {x y : Nat} (hx : x ∈ a.keys) (hxy : a.Past x y) : y ∈ a.keys := by
  induction hxy with
  | refl => exact hx
  | tail _ hbc ih => exact h.edges_keys _ ih _ hbc

theorem ancestor_mem {x : Nat} (hx : x ∈ a.keys) {k : Nat} (hk : a.ancestor k x ≠ NULL) :
    a.ancestor k x ∈ a.keys :=
  h.past_mem hx (past_ancestor k x hk h.null_parent)

/-- **The past of a block splits**: its parent's past, itself, and its epoch set; for a block
    without a parent, the epoch set is all its past but itself. -/
theorem past_iff_of_mem {x : Nat} (hx : x ∈ a.keys) (y : Nat) :
    a.Past x y ↔ PastSet a (a.node x).parent y ∨ y = x ∨ a.EpochSet x y := by
  by_cases hp : (a.node x).parent = NULL
  · have hnone : ¬ PastSet a (a.node x).parent y := fun h' => h'.1 hp
    constructor
    · intro hxy
      by_cases hyx : y = x
      · exact Or.inr (Or.inl hyx)
      · -- the past of `NULL` holds no block
        have hnull : ¬ a.Past (a.node x).parent y := by
          rw [hp]
          intro hn
          exact h.ne_null (h.past_mem hx hxy) (h.past_null hn)
        exact Or.inr (Or.inr ⟨hxy, hnull, hyx⟩)
    · rintro (h' | rfl | h')
      · exact absurd h' hnone
      · exact Past.refl a y
      · exact h'.1
  · rw [past_iff_parent_or_epochSet hp]
    simp only [PastSet, hp, ne_eq, not_false_eq_true, true_and]

/-- A block is not in its parent's past. -/
theorem not_past_parent_self {x : Nat} (hp : (a.node x).parent ≠ NULL) :
    ¬ a.Past (a.node x).parent x := by
  obtain ⟨rank, hr⟩ := h.ranked
  exact hr.not_reach_of_mem (parent_mem_parentAndReferees hp)

/-- A block is not in a referee's past. -/
theorem not_past_referee_self {x r : Nat} (hr : r ∈ (a.node x).referees) : ¬ a.Past r x := by
  obtain ⟨rank, hrank⟩ := h.ranked
  exact hrank.not_reach_of_mem (referee_mem_parentAndReferees hr)

/-- **A parent chain that avoids `NULL` is no longer than the arena.** Its blocks are keys
    of strictly falling rank, so they are distinct. -/
theorem chain_card_le {x : Nat} (hx : x ∈ a.keys) (n : Nat)
    (hn : ∀ j ≤ n, a.ancestor j x ≠ NULL) : n + 1 ≤ a.keys.card := by
  obtain ⟨rank, hr⟩ := h.ranked
  -- rank falls strictly along the chain
  have hstep : ∀ j < n, rank (a.ancestor (j + 1) x) < rank (a.ancestor j x) := by
    intro j hj
    rw [ancestor_succ']
    have hp : (a.node (a.ancestor j x)).parent ≠ NULL := by
      rw [← ancestor_succ']; exact hn (j + 1) hj
    exact hr _ _ (parent_mem_parentAndReferees hp)
  have hanti : ∀ i j, i < j → j ≤ n → rank (a.ancestor j x) < rank (a.ancestor i x) := by
    intro i j hij hjn
    induction j with
    | zero => omega
    | succ j ih =>
      rcases Nat.lt_succ_iff_lt_or_eq.mp hij with hij | rfl
      · exact (hstep j (by omega)).trans (ih hij (by omega))
      · exact hstep i (by omega)
  have hinj : Set.InjOn (fun j => a.ancestor j x) (Finset.range (n + 1) : Set Nat) := by
    intro i hi j hj hij
    simp only [Finset.coe_range, Set.mem_Iio] at hi hj
    by_contra hne
    rcases Nat.lt_or_gt_of_ne hne with hlt | hlt
    · exact absurd (congrArg rank hij) (Nat.ne_of_gt (hanti i j hlt (by omega)))
    · exact absurd (congrArg rank hij) (Nat.ne_of_lt (hanti j i hlt (by omega)))
  have hsub : (Finset.range (n + 1)).image (fun j => a.ancestor j x) ⊆ a.keys := by
    intro y hy
    obtain ⟨j, hj, rfl⟩ := Finset.mem_image.mp hy
    exact h.ancestor_mem hx (hn j (by simpa [Nat.lt_succ_iff] using hj))
  have := Finset.card_le_card hsub
  rwa [Finset.card_image_of_injOn hinj, Finset.card_range] at this

/-- Every parent chain reaches `NULL` within the size of the arena. -/
theorem exists_ancestor_null {x : Nat} (hx : x ∈ a.keys) :
    ∃ k ≤ a.keys.card, a.ancestor k x = NULL := by
  by_contra hne
  push Not at hne
  have := h.chain_card_le hx a.keys.card fun j hj => hne j hj
  omega

/-- Once a chain reaches `NULL` it stays there. -/
theorem ancestor_null_le {x : Nat} {i j : Nat} (hij : i ≤ j) (hi : a.ancestor i x = NULL) :
    a.ancestor j x = NULL := by
  induction j with
  | zero => simpa [Nat.le_zero.mp hij] using hi
  | succ j ih =>
    rcases Nat.lt_succ_iff_lt_or_eq.mp (Nat.lt_succ_of_le hij) with hlt | heq
    · rw [ancestor_succ', ih (Nat.lt_succ_iff.mp hlt), h.null_parent]
    · rw [← heq]; exact hi

end GraphOk

/-! ## 2. Parent walks -/

/-- `l` climbs the parents from `prev` to `last`: each block's parent is the one before it. -/
def ParentChain (a : Arena) : Nat → List Nat → Nat → Prop
  | prev, [], last => last = prev
  | prev, x :: l, last => (a.node x).parent = prev ∧ ParentChain a x l last

theorem ParentChain.append_single {a : Arena} {y : Nat} :
    ∀ {prev : Nat} {l : List Nat} {last : Nat}, ParentChain a prev l last →
      (a.node y).parent = last → ParentChain a prev (l ++ [y]) y
  | _, [], _, hl, hy => ⟨hy.trans hl, rfl⟩
  | _, _ :: _, _, hl, hy => ⟨hl.1, ParentChain.append_single hl.2 hy⟩

/-- The first `k + 1` ancestors of `x` are `x`, then the first `k` of its parent. -/
theorem ancestors_succ (a : Arena) (x k : Nat) :
    (List.range (k + 1)).map (a.ancestor · x) =
      x :: (List.range k).map (a.ancestor · (a.node x).parent) := by
  simp [List.range_succ_eq_map, Function.comp_def, ancestor_succ]

/-- The first `k` ancestors of `x`, deepest first, climb from the `k`-th ancestor to `x`. -/
theorem parentChain_ancestors (a : Arena) (x : Nat) :
    ∀ k, ParentChain a (a.ancestor k x) ((List.range k).map (a.ancestor · x)).reverse x
  | 0 => rfl
  | k + 1 => by
    -- the chain up to `x`'s parent, then `x` itself
    rw [ancestors_succ, List.reverse_cons, ancestor_succ]
    exact (parentChain_ancestors a (a.node x).parent k).append_single rfl

/-- **The walk of `path_to_lca`.** If the `k`-th ancestor of `x` is the first to be `lca`,
    the walk returns the first `k` ancestors. -/
theorem pathToLca_eq (a : Arena) (lca : Nat) :
    ∀ (k x fuel : Nat), (∀ j < k, a.ancestor j x ≠ lca) → a.ancestor k x = lca →
      k + 1 ≤ fuel →
      ConsensusGraphInner.pathToLca a lca fuel x = some ((List.range k).map (a.ancestor · x))
  | 0, x, fuel + 1, _, hk, _ => by
    rw [ancestor_zero] at hk
    subst hk
    simp [ConsensusGraphInner.pathToLca]
  | k + 1, x, fuel + 1, hne, hk, hfuel => by
    have hx : x ≠ lca := hne 0 (by omega)
    have ih := pathToLca_eq a lca k (a.node x).parent fuel
      (fun j hj => by rw [← ancestor_succ]; exact hne (j + 1) (by omega))
      (by rw [← ancestor_succ]; exact hk) (by omega)
    rw [ConsensusGraphInner.pathToLca, if_neg hx, ih, List.range_succ_eq_map]
    simp [Function.comp_def, ancestor_succ]

/-- **The walk of `compute_pastset_brutal`.** If the `m`-th ancestor of `x` is the first to
    be `NULL` or cached, the walk returns the first `m` ancestors and it. -/
theorem pathToCached_eq (a : Arena) (cache : PastSetCache) :
    ∀ (m x fuel : Nat), (∀ j < m, a.ancestor j x ≠ NULL ∧ cache.get (a.ancestor j x) = none) →
      (a.ancestor m x = NULL ∨ cache.get (a.ancestor m x) ≠ none) → m + 1 ≤ fuel →
      ConsensusGraphInner.pathToCached a cache fuel x =
        some ((List.range m).map (a.ancestor · x), a.ancestor m x)
  | 0, x, fuel + 1, _, hm, _ => by
    have : ¬ (x ≠ NULL ∧ cache.get x = none) := by
      rcases hm with hm | hm
      · exact fun h' => h'.1 hm
      · exact fun h' => hm h'.2
    simp [ConsensusGraphInner.pathToCached, this]
  | m + 1, x, fuel + 1, hgo, hm, hfuel => by
    have ih := pathToCached_eq a cache m (a.node x).parent fuel
      (fun j hj => by rw [← ancestor_succ]; exact hgo (j + 1) (by omega))
      (by rw [← ancestor_succ]; exact hm) (by omega)
    have h0 := hgo 0 (by omega)
    rw [ancestor_zero] at h0
    rw [ConsensusGraphInner.pathToCached, if_pos h0, ih, List.range_succ_eq_map]
    simp [Function.comp_def, ancestor_succ]

/-! ## 3. The invariant -/

/-- What a cache entry holds: the past of its key, a block. -/
def PastCached (a : Arena) (k : Nat) (v : Finset Nat) : Prop :=
  k ∈ a.keys ∧ ∀ y, y ∈ v ↔ a.Past k y

/-- The order `compute_blockset_in_own_view_of_epoch` records for `x`: a topological order of
    the same-era part of the epoch set, then `x`. The last `EPOCH_EXECUTED_BLOCK_BOUND` blocks
    of it are kept for execution; the hashes of the others, then of the other-era part, are
    skipped. -/
def EpochOrdered (a : Arena) (x : Nat) (d : ConsensusGraphNodeData) : Prop :=
  ∃ order other : List Nat,
    Represents order (fun y => a.EpochSet x y ∧ (a.node y).eraBlock = (a.node x).eraBlock) ∧
    order.Pairwise (fun u v => v ∉ a.predecessorEdges u) ∧
    Represents other (fun y => a.EpochSet x y ∧ (a.node y).eraBlock ≠ (a.node x).eraBlock) ∧
    d.orderedExecutableEpochBlocks =
      (order ++ [x]).drop (order.length + 1 - epochExecutedBlockBound) ∧
    d.skippedEpochBlocks =
      ((order ++ [x]).take (order.length + 1 - epochExecutedBlockBound) ++ other).map
        fun i => (a.node i).hash

@[simp] theorem pastCached_modifyData (a : Arena) (i : Nat) (f) :
    PastCached (a.modifyData i f) = PastCached a := by
  funext k v
  simp [PastCached]

@[simp] theorem epochOrdered_modifyData (a : Arena) (i : Nat) (f) :
    EpochOrdered (a.modifyData i f) = EpochOrdered a := by
  funext x d
  simp [EpochOrdered]

/-- The order does not read the stored set. -/
@[simp] theorem epochOrdered_setBlockset (a : Arena) (x : Nat) (d : ConsensusGraphNodeData)
    (l : List Nat) :
    EpochOrdered a x { d with blocksetInOwnViewOfEpoch := l } ↔ EpochOrdered a x d := Iff.rfl

/-- **The order recorded for `x` reads little of the arena**: the epoch set of `x`; whether a
    member's era block is that of `x`; the edges out of the members, of which the order may
    lose some; and the hashes of `x` and of the members. -/
theorem EpochOrdered.of_reads {a a' : Arena} {x : Nat} {d : ConsensusGraphNodeData}
    (hes : ∀ y, a'.EpochSet x y ↔ a.EpochSet x y)
    (hera : ∀ y, a.EpochSet x y →
      ((a'.node y).eraBlock = (a'.node x).eraBlock ↔ (a.node y).eraBlock = (a.node x).eraBlock))
    (hedges : ∀ u, a.EpochSet x u → ∀ v, v ∈ a'.predecessorEdges u → v ∈ a.predecessorEdges u)
    (hhash : ∀ y, y = x ∨ a.EpochSet x y → (a'.node y).hash = (a.node y).hash)
    (h : EpochOrdered a x d) : EpochOrdered a' x d := by
  obtain ⟨order, other, ⟨hnd, hmem⟩, hpw, ⟨hnd', hmem'⟩, hord, hskip⟩ := h
  have hin : ∀ y ∈ order, a.EpochSet x y := fun y hy => ((hmem y).mp hy).1
  have hin' : ∀ y ∈ other, a.EpochSet x y := fun y hy => ((hmem' y).mp hy).1
  refine ⟨order, other, ⟨hnd, fun y => ?_⟩, ?_, ⟨hnd', fun y => ?_⟩, hord, ?_⟩
  · rw [hmem y]
    dsimp only
    rw [hes y]
    exact and_congr_right fun hy => (hera y hy).symm
  · exact hpw.imp_of_mem fun hu _ huv hv => huv (hedges _ (hin _ hu) _ hv)
  · rw [hmem' y]
    dsimp only
    rw [hes y]
    exact and_congr_right fun hy => not_congr (hera y hy).symm
  · rw [hskip]
    refine List.map_congr_left fun i hi => ?_
    -- a skipped block is `x` or a member of the epoch set
    have hi' : i = x ∨ a.EpochSet x i := by
      rcases List.mem_append.mp hi with hi | hi
      · rcases List.mem_append.mp (List.mem_of_mem_take hi) with hi | hi
        · exact Or.inr (hin i hi)
        · exact Or.inl (List.mem_singleton.mp hi)
      · exact Or.inr (hin' i hi)
    exact (hhash i hi').symm

/-- The data of a block whose set is not taken: a cleared set is empty, and a set that is not
    cleared is the block's epoch set, with its order when the block has a parent. A
    checkpoint makes the new era genesis a block without a parent and leaves its order as
    it was. -/
def DataOk (a : Arena) (x : Nat) (d : ConsensusGraphNodeData) : Prop :=
  (d.blocksetCleared = true → d.blocksetInOwnViewOfEpoch = []) ∧
  (d.blocksetCleared = false →
    Represents d.blocksetInOwnViewOfEpoch (a.EpochSet x) ∧
      ((a.node x).parent ≠ NULL → EpochOrdered a x d))

@[simp] theorem dataOk_modifyData (a : Arena) (i : Nat) (f) :
    DataOk (a.modifyData i f) = DataOk a := by
  funext x d
  simp [DataOk]

/-- **The invariant of the epoch-set data.** It speaks of the blocks of the current era,
    those that are not legacy blocks: the code computes the epoch sets of these only.
    `taken` lists the sets taken out by `exchange_or_compute_blockset_in_own_view_of_epoch`
    and not yet put back, with the value taken; such a block holds an empty set until it is
    put back. A block of the era without a parent, the era genesis, has no referees, so its
    epoch set is empty; the parent of a block of the era is in the era. -/
structure EpochInv (taken : List (Nat × List Nat)) (s : ConsensusGraphInner) : Prop where
  graph : GraphOk s.arena
  roots : ∀ x ∈ s.arena.keys, s.arena.isLegacyBlock x = false →
    (s.arena.node x).parent = NULL → (s.arena.node x).referees = []
  era_parent : ∀ x ∈ s.arena.keys, s.arena.isLegacyBlock x = false →
    (s.arena.node x).parent ≠ NULL → s.arena.isLegacyBlock (s.arena.node x).parent = false
  cache : s.pastsetCache.Good (PastCached s.arena)
  data : ∀ x ∈ s.arena.keys, x ∉ taken.map Prod.fst → s.arena.isLegacyBlock x = false →
    DataOk s.arena x (s.arena.node x).data
  taken_out : ∀ p ∈ taken, p.1 ∈ s.arena.keys ∧ s.arena.isLegacyBlock p.1 = false ∧
    (s.arena.node p.1).data.blocksetCleared = false ∧
    (s.arena.node p.1).data.blocksetInOwnViewOfEpoch = [] ∧
    ((s.arena.node p.1).parent ≠ NULL → EpochOrdered s.arena p.1 (s.arena.node p.1).data) ∧
    Represents p.2 (s.arena.EpochSet p.1)
  taken_nodup : (taken.map Prod.fst).Nodup

theorem GraphOk.modifyData {a : Arena} (h : GraphOk a) (i : Nat) (f) :
    GraphOk (a.modifyData i f) :=
  ⟨by simpa using h.null_not_key, by simpa using h.vacant, by simpa using h.edges_keys,
    by simpa using h.ranked⟩

/-- A set of the era that is neither taken nor cleared is the epoch set. -/
theorem EpochInv.represents {taken : List (Nat × List Nat)} {s : ConsensusGraphInner}
    (hinv : EpochInv taken s) {x : Nat} (hx : x ∈ s.arena.keys) (hfree : x ∉ taken.map Prod.fst)
    (hera : s.arena.isLegacyBlock x = false) (hc : (s.arena.node x).data.blocksetCleared = false) :
    Represents (s.arena.node x).data.blocksetInOwnViewOfEpoch (s.arena.EpochSet x) :=
  ((hinv.data x hx hfree hera).2 hc).1

/-- The ancestors of a block of the era, up to `NULL`, are in the era. -/
theorem EpochInv.not_legacy_of_isAncestor {taken : List (Nat × List Nat)}
    {s : ConsensusGraphInner} (hinv : EpochInv taken s) {x main : Nat}
    (hmain : main ∈ s.arena.keys) (hera : s.arena.isLegacyBlock main = false)
    (hanc : s.arena.IsAncestor x main) (hx : x ≠ NULL) : s.arena.isLegacyBlock x = false := by
  obtain ⟨k, rfl⟩ := hanc
  induction k generalizing main with
  | zero => exact hera
  | succ k ih =>
    rw [ancestor_succ] at hx ⊢
    -- the chain has not reached `NULL`, so `main` has a parent
    have hp : (s.arena.node main).parent ≠ NULL := by
      intro hp
      rw [hp] at hx
      exact hx (hinv.graph.ancestor_null_le (x := NULL) (Nat.zero_le k) rfl)
    exact ih (hinv.graph.parent_mem hmain hp) (hinv.era_parent main hmain hera hp) hx

/-- **The frame of the invariant.** Writing the data of a block that is not taken, in order
    when the block is of the era, and replacing the cache by a good one, keeps the
    invariant. -/
theorem EpochInv.modifyData {taken : List (Nat × List Nat)} {s : ConsensusGraphInner}
    (hinv : EpochInv taken s) {i : Nat} (hi : i ∉ taken.map Prod.fst)
    (f : ConsensusGraphNodeData → ConsensusGraphNodeData) {c : PastSetCache}
    (hc : c.Good (PastCached s.arena))
    (hd : s.arena.isLegacyBlock i = false → DataOk s.arena i (f (s.arena.node i).data)) :
    EpochInv taken ⟨s.arena.modifyData i f, s.mainChain, c⟩ where
  graph := hinv.graph.modifyData i f
  roots := by simpa using hinv.roots
  era_parent := by simpa using hinv.era_parent
  cache := by simpa using hc
  data := by
    intro x hx hfree hera
    rw [isLegacyBlock_modifyData] at hera
    by_cases hxi : x = i
    · subst hxi
      simpa using hd hera
    · simpa [modifyData_data_of_ne _ hxi] using hinv.data x hx hfree hera
  taken_out := by
    intro p hp
    -- a taken block is not the one written
    have hne : p.1 ≠ i := fun h' => hi (h' ▸ List.mem_map_of_mem hp)
    simpa [modifyData_data_of_ne _ hne] using hinv.taken_out p hp
  taken_nodup := hinv.taken_nodup

/-! ## 4. One ancestor of the incremental computation -/

/-- What the loop of `compute_blockset_in_own_view_of_epoch_impl` keeps: `visited` and the
    past set of the LCA are together the past of the last ancestor visited. -/
def VisitInv (a : Arena) (pastset : Finset Nat) (prev : Nat) (visited : Finset Nat) : Prop :=
  ∀ y, y ∈ visited ∨ y ∈ pastset ↔ a.Past prev y

/-- **The search from a block's referees finds its epoch set.** Suppose the blocked set is
    the parent's past (as `pastset` and `visited`), the block itself, and the referees
    queued as seeds. Then a block is reached from a seed avoiding the blocked set exactly
    when it is in the epoch set. -/
theorem reachAvoiding_iff_epochSet {a : Arena} (hg : GraphOk a) {x : Nat}
    (hp : (a.node x).parent ≠ NULL) {B : Nat → Prop} {seeds : List Nat}
    (hseeds : ∀ q ∈ seeds, q ∈ (a.node x).referees ∧ ¬ a.Past (a.node x).parent q ∧ q ≠ x)
    (hrest : ∀ q ∈ (a.node x).referees, q ∈ seeds ∨ a.Past (a.node x).parent q ∨ q = x)
    (hB : ∀ z, B z ↔ a.Past (a.node x).parent z ∨ z = x ∨ z ∈ seeds) (y : Nat) :
    (∃ q ∈ seeds, ReachAvoiding a.parentAndReferees B q y) ↔ a.EpochSet x y := by
  constructor
  · rintro ⟨q, hq, hpath⟩
    obtain ⟨hqr, hqp, hqx⟩ := hseeds q hq
    refine ⟨Past.of_referee hqr hpath.reach, ?_⟩
    -- the path's last block is the seed itself, or a step target outside `B`
    rcases hpath.cases_tail with rfl | ⟨b, -, -, hby⟩
    · exact ⟨hqp, hqx⟩
    · have := (hB y).not.mp hby
      push Not at this
      exact ⟨this.1, this.2.1⟩
  · rintro ⟨hxy, hpy, hyx⟩
    rcases past_iff.mp hxy with rfl | ⟨-, hpy'⟩ | ⟨r, hr, hry⟩
    · exact absurd rfl hyx
    · exact absurd hpy' hpy
    · rcases hrest r hr with hrs | hrp | rfl
      · -- from a seed, the search stops only in the parent's past, which `y` is not in
        have hE : ∀ q ∈ seeds, ∀ z, z = x → ¬ Reach a.parentAndReferees q z := by
          rintro q hq z rfl
          exact hg.not_past_referee_self (hseeds q hq).1
        rcases reach_closed_or_reachAvoiding (closed_past a _) (fun z hz => (hB z).mp hz) hE
          hrs hry with hC | hreach
        · exact absurd hC hpy
        · exact hreach
      · exact absurd (hrp.trans hry) hpy
      · exact hg.not_past_referee_self hr Relation.ReflTransGen.refl |>.elim

/-- The search from `x`'s referees, when `visited` and `pastset` are together the past of
    `x`'s parent: afterwards they are together the past of `x`, and the popped blocks are
    `x`'s epoch set. -/
theorem search_from_referees {a : Arena} (hg : GraphOk a) {x : Nat} (hx : x ∈ a.keys)
    (hp : (a.node x).parent ≠ NULL) {pastset visited : Finset Nat}
    (hV : VisitInv a pastset (a.node x).parent visited)
    {fuel : Nat} (hfuel : 2 * a.keys.card + 1 ≤ fuel) :
    ∃ r, Bfs.search a.parentAndReferees (fun i => decide (i ∈ pastset)) fuel
        ⟨(Bfs.offerAll (fun i => decide (i ∈ pastset)) (insert x visited, [])
          (a.node x).referees).2,
         (Bfs.offerAll (fun i => decide (i ∈ pastset)) (insert x visited, [])
          (a.node x).referees).1, []⟩ = some r ∧
      VisitInv a pastset x r.1 ∧ Represents r.2 (a.EpochSet x) := by
  obtain ⟨fresh, hstart, hnd, hfresh⟩ :=
    Bfs.offerAll_spec (fun i => decide (i ∈ pastset)) (a.node x).referees (insert x visited) []
  rw [hstart]
  simp only [List.nil_append]
  -- the seeds are the referees outside the parent's past and other than `x`
  have hseeds : ∀ q ∈ fresh, q ∈ (a.node x).referees ∧ ¬ a.Past (a.node x).parent q ∧ q ≠ x := by
    intro q hq
    obtain ⟨hqr, hqs, hqv⟩ := (hfresh q).mp hq
    simp only [Finset.mem_insert, not_or] at hqv
    refine ⟨hqr, fun hq' => ?_, hqv.1⟩
    rcases (hV q).mpr hq' with h' | h'
    · exact hqv.2 h'
    · simp [h'] at hqs
  have hrest : ∀ q ∈ (a.node x).referees, q ∈ fresh ∨ a.Past (a.node x).parent q ∨ q = x := by
    intro q hq
    by_cases hqf : q ∈ fresh
    · exact Or.inl hqf
    · have : ¬ (decide (q ∈ pastset) = false ∧ q ∉ insert x visited) :=
        fun h' => hqf ((hfresh q).mpr ⟨hq, h'⟩)
      simp only [decide_eq_false_iff_not, Finset.mem_insert, not_or, not_and, not_not] at this
      by_cases hqs : q ∈ pastset
      · exact Or.inr (Or.inl ((hV q).mp (Or.inr hqs)))
      · by_cases hqx : q = x
        · exact Or.inr (Or.inr hqx)
        · exact Or.inr (Or.inl ((hV q).mp (Or.inl (this hqs hqx))))
  have hB : ∀ z, Bfs.Blocked (fun i => decide (i ∈ pastset)) (insert x visited ∪ fresh.toFinset) z ↔
      a.Past (a.node x).parent z ∨ z = x ∨ z ∈ fresh := by
    intro z
    simp only [Bfs.Blocked, decide_eq_true_eq, Finset.mem_union, Finset.mem_insert,
      List.mem_toFinset, ← hV z]
    tauto
  obtain ⟨r, hrun, hnodup, hout, hseen⟩ := Bfs.search_spec (fun i => decide (i ∈ pastset))
    (U := a.keys) (fun y hy z hz => hg.edges_keys y hy z hz)
    (fun q hq => ⟨Finset.mem_union_right _ (List.mem_toFinset.mpr hq),
      hg.referee_mem hx (hseeds q hq).1⟩) hnd hfuel
  have hepoch : ∀ y, y ∈ r.2 ↔ a.EpochSet x y := fun y =>
    (hout y).trans (reachAvoiding_iff_epochSet hg hp hseeds hrest hB y)
  refine ⟨r, hrun, fun y => ?_, hnodup, hepoch⟩
  -- a seed is in the epoch set: it is its own path
  have hseed : y ∈ fresh → a.EpochSet x y := fun hf =>
    (reachAvoiding_iff_epochSet hg hp hseeds hrest hB y).mp ⟨y, hf, Relation.ReflTransGen.refl⟩
  rw [hseen, past_iff_parent_or_epochSet hp, ← hV, hepoch]
  simp only [Finset.mem_union, Finset.mem_insert, List.mem_toFinset]
  tauto

theorem mem_foldl_insert (l : List Nat) (v : Finset Nat) (y : Nat) :
    y ∈ l.foldl (fun v i => insert i v) v ↔ y ∈ v ∨ y ∈ l := by
  induction l generalizing v with
  | nil => simp
  | cons i l ih =>
    rw [List.foldl_cons, ih, Finset.mem_insert, List.mem_cons]
    tauto

/-- An ancestor other than `main` adds itself and its epoch set to `visited`: the stored set,
    or, when that was cleared, what the search from its referees finds. -/
theorem visitAncestor_of_ne {a : Arena} (hg : GraphOk a) {pastset : Finset Nat} {main x : Nat}
    (hx : x ∈ a.keys) (hp : (a.node x).parent ≠ NULL) (hne : x ≠ main)
    (hstored : (a.node x).data.blocksetCleared = false →
      Represents (a.node x).data.blocksetInOwnViewOfEpoch (a.EpochSet x))
    {acc : Finset Nat × List Nat} (hacc : VisitInv a pastset (a.node x).parent acc.1)
    {fuel : Nat} (hfuel : 2 * a.keys.card + 1 ≤ fuel) :
    ∃ V, ConsensusGraphInner.visitAncestor fuel a pastset main acc x = some (V, acc.2) ∧
      VisitInv a pastset x V := by
  simp only [ConsensusGraphInner.visitAncestor]
  by_cases hc : (a.node x).data.blocksetCleared = true
  · obtain ⟨r, hrun, hV, -⟩ := search_from_referees hg hx hp hacc hfuel
    rw [if_pos (Or.inr hc), hrun]
    exact ⟨r.1, by simp [hne], hV⟩
  · rw [if_neg (by simp [hne, hc])]
    have hbs := (hstored (by simpa using hc)).2
    refine ⟨_, rfl, fun y => ?_⟩
    rw [mem_foldl_insert, Finset.mem_insert, past_iff_parent_or_epochSet hp, ← hacc y, hbs]
    tauto

/-- `main` itself is always searched, and the search pushes its epoch set. -/
theorem visitAncestor_main {a : Arena} (hg : GraphOk a) {pastset : Finset Nat} {main : Nat}
    (hmain : main ∈ a.keys) (hp : (a.node main).parent ≠ NULL)
    (acc : Finset Nat × List Nat) (hacc : VisitInv a pastset (a.node main).parent acc.1)
    {fuel : Nat} (hfuel : 2 * a.keys.card + 1 ≤ fuel) :
    ∃ V popped, ConsensusGraphInner.visitAncestor fuel a pastset main acc main =
      some (V, acc.2 ++ popped) ∧ Represents popped (a.EpochSet main) := by
  obtain ⟨r, hrun, -, hpopped⟩ := search_from_referees hg hmain hp hacc hfuel
  refine ⟨r.1, r.2, ?_, hpopped⟩
  simp only [ConsensusGraphInner.visitAncestor, true_or, ↓reduceIte, hrun, Option.map_some]

/-- **The loop over the ancestors below `main`.** Along a parent chain of blocks other than
    `main`, `visited` follows the past of the block last visited, and nothing is pushed. -/
theorem foldlM_visitAncestor {a : Arena} (hg : GraphOk a) {pastset : Finset Nat} {main : Nat}
    {fuel : Nat} (hfuel : 2 * a.keys.card + 1 ≤ fuel) :
    ∀ {prev : Nat} {l : List Nat} {last : Nat}, ParentChain a prev l last → prev ≠ NULL →
      (∀ x ∈ l, x ∈ a.keys ∧ x ≠ main ∧ ((a.node x).data.blocksetCleared = false →
        Represents (a.node x).data.blocksetInOwnViewOfEpoch (a.EpochSet x))) →
      ∀ (acc : Finset Nat × List Nat), VisitInv a pastset prev acc.1 →
      ∃ V, l.foldlM (ConsensusGraphInner.visitAncestor fuel a pastset main) acc =
        some (V, acc.2) ∧ VisitInv a pastset last V
  | _, [], _, hl, _, _, acc, hacc => ⟨acc.1, rfl, by subst hl; exact hacc⟩
  | prev, x :: l, last, ⟨hxp, hl⟩, hprev, hmem, acc, hacc => by
    obtain ⟨hx, hne, hstored⟩ := hmem x List.mem_cons_self
    rw [← hxp] at hprev hacc
    obtain ⟨V, hV, hinv⟩ := visitAncestor_of_ne hg hx hprev hne hstored hacc hfuel
    -- the rest of the chain climbs from `x`
    obtain ⟨V', hV', hinv'⟩ := foldlM_visitAncestor hg hfuel hl (hg.ne_null hx)
      (fun y hy => hmem y (List.mem_cons_of_mem _ hy)) (V, acc.2) hinv
    rw [List.foldlM_cons, hV]
    exact ⟨V', hV', hinv'⟩

/-! ## 5. `compute_pastset_brutal` -/

/-- **One ancestor of `compute_pastset_brutal`.** From the past of its parent, the result
    grows to the past of the ancestor: by its stored epoch set, or, when that was cleared, by
    a search from the ancestor that stops at the result. -/
theorem addAncestorPast_spec {a : Arena} (hg : GraphOk a) {x : Nat} (hx : x ∈ a.keys)
    (hstored : (a.node x).data.blocksetCleared = false →
      Represents (a.node x).data.blocksetInOwnViewOfEpoch (a.EpochSet x))
    {result : Finset Nat} (hres : ∀ y, y ∈ result ↔ PastSet a (a.node x).parent y)
    {fuel : Nat} (hfuel : 2 * a.keys.card + 1 ≤ fuel) :
    ∃ result', ConsensusGraphInner.addAncestorPast fuel a result x = some result' ∧
      ∀ y, y ∈ result' ↔ a.Past x y := by
  simp only [ConsensusGraphInner.addAncestorPast]
  by_cases hc : (a.node x).data.blocksetCleared = true
  · rw [if_pos hc]
    obtain ⟨r, hrun, -, hout, hseen⟩ := Bfs.search_spec (fun _ => false) (U := a.keys)
      (fun y hy z hz => hg.edges_keys y hy z hz)
      (fun q (hq : q ∈ [x]) => show q ∈ insert x result ∧ q ∈ a.keys by
        rw [List.mem_singleton] at hq
        subst hq
        exact ⟨Finset.mem_insert_self q result, hx⟩)
      (List.nodup_singleton x) hfuel
    refine ⟨r.1, by rw [hrun]; rfl, fun y => ?_⟩
    rw [hseen, hout, Finset.mem_insert, hres]
    constructor
    · rintro ((rfl | hpast) | ⟨q, hq, hpath⟩)
      · exact Past.refl a y
      · exact Past.of_parent hpast.1 hpast.2
      · rw [List.mem_singleton] at hq
        subst hq
        exact hpath.reach
    · intro hxy
      -- the search stops only at `x` and at the result, which is closed
      have hB : ∀ z, Bfs.Blocked (fun _ => false) (insert x result) z →
          PastSet a (a.node x).parent z ∨ False ∨ z ∈ [x] := by
        intro z hz
        simp only [Bfs.Blocked, Bool.false_eq_true, false_or, Finset.mem_insert, hres] at hz
        rcases hz with rfl | hz
        · exact Or.inr (Or.inr (List.mem_singleton_self _))
        · exact Or.inl hz
      rcases reach_closed_or_reachAvoiding (closed_pastSet a _) hB (fun _ _ _ h' => h'.elim)
        (List.mem_singleton_self x) hxy with hC | hreach
      · exact Or.inl (Or.inr hC)
      · exact Or.inr hreach
  · rw [if_neg hc]
    have hbs := (hstored (by simpa using hc)).2
    refine ⟨_, rfl, fun y => ?_⟩
    rw [mem_foldl_insert, Finset.mem_insert, hres, hbs, hg.past_iff_of_mem hx]
    tauto

/-- **The loop of `compute_pastset_brutal`.** Along a parent chain, the result follows the
    past of the block last added. -/
theorem foldlM_addAncestorPast {a : Arena} (hg : GraphOk a) {fuel : Nat}
    (hfuel : 2 * a.keys.card + 1 ≤ fuel) :
    ∀ {prev : Nat} {l : List Nat} {last : Nat}, ParentChain a prev l last →
      (∀ x ∈ l, x ∈ a.keys ∧ ((a.node x).data.blocksetCleared = false →
        Represents (a.node x).data.blocksetInOwnViewOfEpoch (a.EpochSet x))) →
      ∀ (result : Finset Nat), (∀ y, y ∈ result ↔ PastSet a prev y) →
      ∃ result', l.foldlM (ConsensusGraphInner.addAncestorPast fuel a) result = some result' ∧
        ∀ y, y ∈ result' ↔ PastSet a last y
  | _, [], _, hl, _, result, hres => ⟨result, rfl, by subst hl; exact hres⟩
  | prev, x :: l, last, ⟨hxp, hl⟩, hmem, result, hres => by
    obtain ⟨hx, hstored⟩ := hmem x List.mem_cons_self
    rw [← hxp] at hres
    obtain ⟨r, hr, hpast⟩ := addAncestorPast_spec hg hx hstored hres hfuel
    have hpast' : ∀ y, y ∈ r ↔ PastSet a x y := fun y => by
      rw [hpast y]
      exact ⟨fun h' => ⟨hg.ne_null hx, h'⟩, fun h' => h'.2⟩
    obtain ⟨r', hr', hres'⟩ := foldlM_addAncestorPast hg hfuel hl
      (fun y hy => hmem y (List.mem_cons_of_mem _ hy)) r hpast'
    rw [List.foldlM_cons, hr]
    exact ⟨r', hr', hres'⟩

/-- **`compute_pastset_brutal` computes the past**, from the nearest cached ancestor, or from
    nothing below the chain's root. -/
theorem computePastsetBrutal_spec {s : ConsensusGraphInner} (hg : GraphOk s.arena)
    (hcache : s.pastsetCache.Good (PastCached s.arena)) {me : Nat} (hme : me ∈ s.arena.keys)
    (hstored : ∀ x ∈ s.arena.keys, s.arena.IsAncestor x me →
      (s.arena.node x).data.blocksetCleared = false →
      Represents (s.arena.node x).data.blocksetInOwnViewOfEpoch (s.arena.EpochSet x))
    {fuel : Nat} (hfuel : 2 * s.arena.keys.card + 1 ≤ fuel) :
    ∃ pastset, ConsensusGraphInner.computePastsetBrutal fuel s me = some pastset ∧
      ∀ y, y ∈ pastset ↔ s.arena.Past me y := by
  -- the walk stops at the first ancestor that is `NULL` or cached
  have hex : ∃ m, s.arena.ancestor m me = NULL ∨ s.pastsetCache.get (s.arena.ancestor m me) ≠ none := by
    obtain ⟨k, -, hk⟩ := hg.exists_ancestor_null hme
    exact ⟨k, Or.inl hk⟩
  have hgo : ∀ j < Nat.find hex, s.arena.ancestor j me ≠ NULL ∧
      s.pastsetCache.get (s.arena.ancestor j me) = none := by
    intro j hj
    have := Nat.find_min hex hj
    push Not at this
    exact this
  have hmfuel : Nat.find hex + 1 ≤ fuel := by
    obtain ⟨k, hk, hkn⟩ := hg.exists_ancestor_null hme
    have : Nat.find hex ≤ k := Nat.find_min' hex (Or.inl hkn)
    omega
  have hpath := pathToCached_eq s.arena s.pastsetCache _ me fuel hgo (Nat.find_spec hex) hmfuel
  -- the result starts as the past of the cached ancestor, empty below the chain's root
  have hinit : ∀ y, y ∈ (s.pastsetCache.get (s.arena.ancestor (Nat.find hex) me)).getD ∅ ↔
      PastSet s.arena (s.arena.ancestor (Nat.find hex) me) y := by
    intro y
    cases hget : s.pastsetCache.get (s.arena.ancestor (Nat.find hex) me) with
    | none =>
      have hn : s.arena.ancestor (Nat.find hex) me = NULL :=
        (Nat.find_spec hex).resolve_right (by simp [hget])
      simp [PastSet, hn]
    | some ps =>
      obtain ⟨hk, hps⟩ := hcache.get hget
      simp [PastSet, hps, hg.ne_null hk]
  have hchain : ∀ x ∈ ((List.range (Nat.find hex)).map (s.arena.ancestor · me)).reverse,
      x ∈ s.arena.keys ∧ ((s.arena.node x).data.blocksetCleared = false →
        Represents (s.arena.node x).data.blocksetInOwnViewOfEpoch (s.arena.EpochSet x)) := by
    intro x hx
    rw [List.mem_reverse, List.mem_map] at hx
    obtain ⟨j, hj, rfl⟩ := hx
    have hkey := hg.ancestor_mem hme (hgo j (List.mem_range.mp hj)).1
    exact ⟨hkey, hstored _ hkey ⟨j, rfl⟩⟩
  obtain ⟨r, hr, hres⟩ := foldlM_addAncestorPast hg hfuel
    (parentChain_ancestors s.arena me (Nat.find hex)) hchain _ hinit
  refine ⟨r, ?_, fun y => ?_⟩
  · unfold ConsensusGraphInner.computePastsetBrutal
    rw [hpath]
    exact hr
  · rw [hres y]
    exact ⟨fun h' => h'.2, fun h' => ⟨hg.ne_null hme, h'⟩⟩

/-! ## 6. The whole computation -/

/-- **The past set of the LCA is cached**: found, its stamp renewed, or computed by
    `compute_pastset_brutal` and inserted. -/
theorem cachePastset_spec {s : ConsensusGraphInner} (hg : GraphOk s.arena)
    (hcache : s.pastsetCache.Good (PastCached s.arena)) {lca : Nat} (hlca : lca ∈ s.arena.keys)
    (hstored : ∀ x ∈ s.arena.keys, s.arena.IsAncestor x lca →
      (s.arena.node x).data.blocksetCleared = false →
      Represents (s.arena.node x).data.blocksetInOwnViewOfEpoch (s.arena.EpochSet x))
    {fuel : Nat} (hfuel : 2 * s.arena.keys.card + 1 ≤ fuel) :
    ∃ c pastset, ConsensusGraphInner.cachePastset fuel s lca = .ok { s with pastsetCache := c } ∧
      c.Good (PastCached s.arena) ∧ c.get lca = some pastset := by
  have hgood := hcache.getAndUpdateCache lca
  have hpair : s.pastsetCache.getAndUpdateCache lca =
      ((s.pastsetCache.getAndUpdateCache lca).1, s.pastsetCache.get lca) :=
    Prod.ext rfl (PastSetCache.getAndUpdateCache_snd _ _)
  unfold ConsensusGraphInner.cachePastset
  rw [hpair]
  cases hget : s.pastsetCache.get lca with
  | some ps => exact ⟨_, ps, rfl, hgood, hcache.getAndUpdateCache_get hget⟩
  | none =>
    -- a miss: computed on the renewed cache, then inserted
    obtain ⟨ps, hps, hpast⟩ := computePastsetBrutal_spec
      (s := { s with pastsetCache := (s.pastsetCache.getAndUpdateCache lca).1 })
      hg hgood hlca hstored hfuel
    obtain ⟨c', hc', hgood', hget'⟩ := hgood.update (s := ps) ⟨hlca, hpast⟩
    refine ⟨c', ps, ?_, hgood', hget'⟩
    simp only [hps, ofFuel, Except.ok_bind, hc', Except.pure_eq_ok]

/-- What the model asks of `ConsensusGraphInner::lca` (`mod.rs` L806-L811): for a block `v`
    of the era, an ancestor of `v` other than `NULL`, whatever the other block. For a legacy
    block the code answers `NULL`, and the model asks nothing. -/
def LcaOk (a : Arena) (lca : Nat → Nat → Nat) : Prop :=
  ∀ u v, v ∈ a.keys → a.isLegacyBlock v = false → lca u v ≠ NULL ∧ a.IsAncestor (lca u v) v

/-- **`compute_blockset_in_own_view_of_epoch_impl` pushes the epoch set of `main`**, from the
    cached past set of any ancestor `lca` of `main`'s parent. -/
theorem computeBlocksetInOwnViewOfEpochImpl_spec {s : ConsensusGraphInner} (hg : GraphOk s.arena)
    {lca main : Nat} (hmain : main ∈ s.arena.keys) (hlca : lca ≠ NULL)
    (hanc : s.arena.IsAncestor lca (s.arena.node main).parent)
    {pastset : Finset Nat} (hget : s.pastsetCache.get lca = some pastset)
    (hps : ∀ y, y ∈ pastset ↔ s.arena.Past lca y)
    (hstored : ∀ x ∈ s.arena.keys, s.arena.IsAncestor x (s.arena.node main).parent →
      (s.arena.node x).data.blocksetCleared = false →
      Represents (s.arena.node x).data.blocksetInOwnViewOfEpoch (s.arena.EpochSet x))
    {fuel : Nat} (hfuel : 2 * s.arena.keys.card + 1 ≤ fuel) :
    ∃ popped, ConsensusGraphInner.computeBlocksetInOwnViewOfEpochImpl fuel s lca main =
        .ok (s.modifyData main fun d =>
          { d with blocksetInOwnViewOfEpoch := d.blocksetInOwnViewOfEpoch ++ popped }) ∧
      Represents popped (s.arena.EpochSet main) := by
  obtain ⟨k', hk'⟩ := hanc
  -- `main` has a parent, since the only ancestor of `NULL` is `NULL`
  have hp : (s.arena.node main).parent ≠ NULL := by
    intro hp
    rw [hp] at hk'
    exact hlca (hk'.symm.trans (hg.ancestor_null_le (Nat.zero_le k') rfl))
  have hex : ∃ k, s.arena.ancestor k main = lca := ⟨k' + 1, by rw [ancestor_succ]; exact hk'⟩
  -- the path holds the first `k` ancestors of `main`, `k` the first step to meet `lca`
  have hk0 : Nat.find hex ≠ 0 := by
    intro h0
    have hml : main = lca := by simpa [h0] using Nat.find_spec hex
    have hpast := past_ancestor k' _ (hk' ▸ hlca) hg.null_parent
    rw [hk', ← hml] at hpast
    exact hg.not_past_parent_self hp hpast
  obtain ⟨k₀, hk₀⟩ : ∃ k₀, Nat.find hex = k₀ + 1 := Nat.exists_eq_succ_of_ne_zero hk0
  have hnn : ∀ j ≤ Nat.find hex, s.arena.ancestor j main ≠ NULL := fun j hj hj0 =>
    hlca ((Nat.find_spec hex).symm.trans (hg.ancestor_null_le hj hj0))
  have hkfuel : Nat.find hex + 1 ≤ fuel := by
    have := hg.chain_card_le hmain _ hnn
    omega
  have hpath := pathToLca_eq s.arena lca _ main fuel (fun j hj => Nat.find_min hex hj)
    (Nat.find_spec hex) hkfuel
  rw [hk₀, ancestors_succ] at hpath
  -- below `main`, the path climbs from the LCA to `main`'s parent
  have hchain := parentChain_ancestors s.arena (s.arena.node main).parent k₀
  have hlast : s.arena.ancestor k₀ (s.arena.node main).parent = lca := by
    rw [← ancestor_succ, ← hk₀]
    exact Nat.find_spec hex
  rw [hlast] at hchain
  have hmem : ∀ x ∈ ((List.range k₀).map (s.arena.ancestor · (s.arena.node main).parent)).reverse,
      x ∈ s.arena.keys ∧ x ≠ main ∧ ((s.arena.node x).data.blocksetCleared = false →
        Represents (s.arena.node x).data.blocksetInOwnViewOfEpoch (s.arena.EpochSet x)) := by
    intro x hx
    rw [List.mem_reverse, List.mem_map] at hx
    obtain ⟨j, hj, rfl⟩ := hx
    have hjn : s.arena.ancestor j (s.arena.node main).parent ≠ NULL := by
      rw [← ancestor_succ]
      exact hnn (j + 1) (by rw [hk₀]; exact Nat.succ_le_succ (List.mem_range.mp hj).le)
    have hkey := hg.ancestor_mem (hg.parent_mem hmain hp) hjn
    refine ⟨hkey, fun heq => ?_, hstored _ hkey ⟨j, rfl⟩⟩
    -- an ancestor of the parent is in the parent's past, which `main` is not
    have hpast := past_ancestor j _ hjn hg.null_parent
    rw [heq] at hpast
    exact hg.not_past_parent_self hp hpast
  have hinit : VisitInv s.arena pastset lca (∅ : Finset Nat) := fun y => by simp [hps]
  obtain ⟨V, hV, hinv⟩ := foldlM_visitAncestor hg hfuel hchain hlca hmem (∅, []) hinit
  obtain ⟨V', popped, hV', hpopped⟩ := visitAncestor_main hg hmain hp (V, []) hinv hfuel
  have hfold : (main :: (List.range k₀).map (s.arena.ancestor · (s.arena.node main).parent)).reverse.foldlM
      (ConsensusGraphInner.visitAncestor fuel s.arena pastset main) (∅, []) = some (V', popped) := by
    rw [List.reverse_cons, List.foldlM_append, hV]
    simpa using hV'
  refine ⟨popped, ?_, hpopped⟩
  simp only [ConsensusGraphInner.computeBlocksetInOwnViewOfEpochImpl, hget, unwrap, hpath, ofFuel,
    hfold, Except.ok_bind, Except.pure_eq_ok]

/-- The cut of L982-L993: when more than `EPOCH_EXECUTED_BLOCK_BOUND` blocks are ordered, the
    first ones are skipped; otherwise the cut is empty. -/
theorem orderedAndSkipped_eq (ordered other : List Nat) :
    (if ordered.length > epochExecutedBlockBound then
      (ordered.drop (ordered.length - epochExecutedBlockBound),
        ordered.take (ordered.length - epochExecutedBlockBound) ++ other)
    else (ordered, other)) =
    (ordered.drop (ordered.length - epochExecutedBlockBound),
      ordered.take (ordered.length - epochExecutedBlockBound) ++ other) := by
  split_ifs with h
  · rfl
  · have h0 : ordered.length - epochExecutedBlockBound = 0 := by omega
    rw [h0, List.drop_zero, List.take_zero, List.nil_append]

/-- **The ordering** of a block whose set is its epoch set: the same-era part is sorted
    topologically, and the order and the skipped hashes are recorded as `EpochOrdered` says;
    the block's data is then in order, and not cleared. -/
theorem orderEpochBlocks_spec {s : ConsensusGraphInner} (hg : GraphOk s.arena) {main : Nat}
    (hmain : main ∈ s.arena.keys)
    (hbs : Represents (s.arena.node main).data.blocksetInOwnViewOfEpoch (s.arena.EpochSet main))
    {fuel : Nat} (hfuel : s.arena.keys.card + 1 ≤ fuel) :
    ∃ f : ConsensusGraphNodeData → ConsensusGraphNodeData,
      ConsensusGraphInner.orderEpochBlocks fuel s main = .ok (s.modifyData main f) ∧
      (f (s.arena.node main).data).blocksetCleared = false ∧
      DataOk s.arena main (f (s.arena.node main).data) := by
  obtain ⟨rank, hrank⟩ := hg.ranked
  have hnd := List.nodup_dedup ((s.arena.node main).data.blocksetInOwnViewOfEpoch.filter
    fun idx => s.isSameEra idx main)
  -- the same-era part holds blocks, distinct, so the sort's fuel suffices
  have hlen : ((s.arena.node main).data.blocksetInOwnViewOfEpoch.filter
      fun idx => s.isSameEra idx main).dedup.length + 1 ≤ fuel := by
    have hsub : ((s.arena.node main).data.blocksetInOwnViewOfEpoch.filter
        fun idx => s.isSameEra idx main).dedup.toFinset ⊆ s.arena.keys := by
      intro y hy
      rw [List.mem_toFinset, List.mem_dedup, List.mem_filter] at hy
      exact hg.past_mem hmain ((hbs.2 y).mp hy.1).1
    have := List.toFinset_card_of_nodup hnd ▸ Finset.card_le_card hsub
    omega
  obtain ⟨sorted, hsort, hperm, hpw⟩ := TopoSort.topologicalSort_spec
    (fun y _ x hx _ => hrank y x (mem_predecessorEdges.mp hx)) (fun i => (s.arena.node i).hash)
    hnd hlen
  have hordered : EpochOrdered s.arena main { (s.arena.node main).data with
      skippedEpochBlocks := ((sorted ++ [main]).take
          ((sorted ++ [main]).length - epochExecutedBlockBound) ++
        (s.arena.node main).data.blocksetInOwnViewOfEpoch.filter
          fun idx => !s.isSameEra idx main).map fun i => (s.arena.node i).hash
      orderedExecutableEpochBlocks :=
        (sorted ++ [main]).drop ((sorted ++ [main]).length - epochExecutedBlockBound)
      blocksetCleared := false } := by
    refine ⟨sorted, (s.arena.node main).data.blocksetInOwnViewOfEpoch.filter
      fun idx => !s.isSameEra idx main, ⟨hperm.nodup_iff.mpr hnd, fun y => ?_⟩, hpw,
      ⟨hbs.1.filter _, fun y => ?_⟩, by simp, by simp⟩
    · rw [hperm.mem_iff, List.mem_dedup, List.mem_filter, hbs.2]
      simp [ConsensusGraphInner.isSameEra]
    · rw [List.mem_filter, hbs.2]
      simp [ConsensusGraphInner.isSameEra]
  refine ⟨fun d => { d with
      skippedEpochBlocks := ((sorted ++ [main]).take
          ((sorted ++ [main]).length - epochExecutedBlockBound) ++
        (s.arena.node main).data.blocksetInOwnViewOfEpoch.filter
          fun idx => !s.isSameEra idx main).map fun i => (s.arena.node i).hash
      orderedExecutableEpochBlocks :=
        (sorted ++ [main]).drop ((sorted ++ [main]).length - epochExecutedBlockBound)
      blocksetCleared := false }, ?_, rfl, fun h => absurd h (by simp), fun _ => ⟨hbs, fun _ => hordered⟩⟩
  simp only [ConsensusGraphInner.orderEpochBlocks, hsort, ofFuel, Except.ok_bind,
    orderedAndSkipped_eq, Except.pure_eq_ok]

/-- **`compute_blockset_in_own_view_of_epoch` keeps the invariant and computes `main`.** For
    a block of the era none of whose ancestors is taken, whichever LCA the model's `lca`
    gives, enough fuel computes a set that is cleared: the result writes `main`'s data only,
    and perhaps the cache, and leaves `main` not cleared. The set it stores and the order it
    records are then those the invariant describes. -/
theorem computeBlocksetInOwnViewOfEpoch_spec (lca : Nat → Nat → Nat)
    {taken : List (Nat × List Nat)} {s : ConsensusGraphInner} (hinv : EpochInv taken s)
    (hlca : LcaOk s.arena lca) {main : Nat} (hmain : main ∈ s.arena.keys)
    (hera : s.arena.isLegacyBlock main = false)
    (hfree : ∀ x, s.arena.IsAncestor x main → x ∉ taken.map Prod.fst)
    (hchain : (s.arena.node main).parent ≠ NULL → s.mainChain ≠ [])
    {fuel : Nat} (hfuel : 2 * s.arena.keys.card + 1 ≤ fuel) :
    ∃ f c, ConsensusGraphInner.computeBlocksetInOwnViewOfEpoch lca fuel s main =
        .ok ⟨s.arena.modifyData main f, s.mainChain, c⟩ ∧
      EpochInv taken ⟨s.arena.modifyData main f, s.mainChain, c⟩ ∧
      (f (s.arena.node main).data).blocksetCleared = false := by
  have hstored : ∀ x ∈ s.arena.keys, s.arena.IsAncestor x main →
      (s.arena.node x).data.blocksetCleared = false →
      Represents (s.arena.node x).data.blocksetInOwnViewOfEpoch (s.arena.EpochSet x) :=
    fun x hx hanc hc => hinv.represents hx (hfree x hanc)
      (hinv.not_legacy_of_isAncestor hmain hera hanc (hinv.graph.ne_null hx)) hc
  cases hcl : (s.arena.node main).data.blocksetCleared with
  | false =>
    -- already computed: nothing changes
    refine ⟨id, s.pastsetCache, ?_, by simpa using hinv, hcl⟩
    simpa using ConsensusGraphInner.computeBlocksetInOwnViewOfEpoch_of_not_cleared lca fuel s hcl
  | true =>
  have hempty : (s.arena.node main).data.blocksetInOwnViewOfEpoch = [] :=
    (hinv.data main hmain (hfree main (IsAncestor.refl _ _)) hera).1 hcl
  by_cases hp : (s.arena.node main).parent = NULL
  · -- the era genesis has no referees, so its epoch set is empty
    have hbs : Represents (s.arena.node main).data.blocksetInOwnViewOfEpoch
        (s.arena.EpochSet main) := by
      rw [hempty]
      refine ⟨List.nodup_nil, fun y => ⟨fun h' => absurd h' List.not_mem_nil, ?_⟩⟩
      rintro ⟨hxy, -, hyx⟩
      rcases past_iff.mp hxy with h' | ⟨hp', -⟩ | ⟨r, hr, -⟩
      · exact absurd h'.symm hyx
      · exact absurd hp hp'
      · simp [hinv.roots main hmain hera hp] at hr
    obtain ⟨f, hf, hcl', hd⟩ := orderEpochBlocks_spec hinv.graph hmain hbs
      (show s.arena.keys.card + 1 ≤ fuel by omega)
    refine ⟨f, s.pastsetCache, ?_,
      hinv.modifyData (hfree main (IsAncestor.refl _ _)) f hinv.cache fun _ => hd, hcl'⟩
    simp only [ConsensusGraphInner.computeBlocksetInOwnViewOfEpoch, hcl, hp, Bool.true_eq_false,
      ↓reduceIte, Except.pure_eq_ok, Except.ok_bind, hf]
    rfl
  -- the LCA with the main tip is an ancestor of the parent
  have hpk := hinv.graph.parent_mem hmain hp
  obtain ⟨last, hlast⟩ : ∃ last, s.mainChain.getLast? = some last := by
    cases h' : s.mainChain.getLast? with
    | none => exact absurd (List.getLast?_eq_none_iff.mp h') (hchain hp)
    | some last => exact ⟨last, rfl⟩
  obtain ⟨hlcaN, hanc⟩ := hlca last _ hpk (hinv.era_parent main hmain hera hp)
  have hlcak : lca last (s.arena.node main).parent ∈ s.arena.keys := by
    obtain ⟨k, hk⟩ := hanc
    rw [← hk] at hlcaN ⊢
    exact hinv.graph.ancestor_mem hpk hlcaN
  -- its past set is cached, then the incremental step pushes the epoch set
  obtain ⟨c, ps, hcache, hgood, hget⟩ := cachePastset_spec hinv.graph hinv.cache hlcak
    (fun x hx hx' => hstored x hx (hx'.trans hanc).of_parent) hfuel
  obtain ⟨-, hps⟩ := hgood.get hget
  obtain ⟨popped, himpl, hpopped⟩ := computeBlocksetInOwnViewOfEpochImpl_spec
    (s := { s with pastsetCache := c }) hinv.graph hmain hlcaN hanc hget hps
    (fun x hx hx' => hstored x hx hx'.of_parent) hfuel
  -- the pushed set is the epoch set, stored where the set was empty
  set push : ConsensusGraphNodeData → ConsensusGraphNodeData := fun d =>
    { d with blocksetInOwnViewOfEpoch := d.blocksetInOwnViewOfEpoch ++ popped } with hpush
  have hbs : Represents ((s.arena.modifyData main push).node main).data.blocksetInOwnViewOfEpoch
      (s.arena.EpochSet main) := by
    simpa [hpush, hempty] using hpopped
  obtain ⟨f, hf, hcl', hd⟩ := orderEpochBlocks_spec (s := ⟨s.arena.modifyData main push, s.mainChain, c⟩)
    (GraphOk.modifyData hinv.graph main push) hmain (by simpa using hbs)
    (show s.arena.keys.card + 1 ≤ fuel by omega)
  simp only [modifyData_data_self, dataOk_modifyData] at hcl' hd
  refine ⟨f ∘ push, c, ?_,
    hinv.modifyData (hfree main (IsAncestor.refl _ _)) (f ∘ push) hgood fun _ => hd, hcl'⟩
  simp only [ConsensusGraphInner.computeBlocksetInOwnViewOfEpoch, hcl, hp, Bool.true_eq_false,
    ↓reduceIte, hlast, unwrap, hlcaN, Except.ok_bind, hcache, himpl]
  rw [ConsensusGraphInner.modifyData, hf]
  simp [ConsensusGraphInner.modifyData]

/-! ## 7. The epoch order does not depend on how the set is listed -/

/-- **`dag::topological_sort` is a topological order of the set, and a function of the set.**
    On a set of distinct nodes whose predecessor edges inside the set close no cycle, enough
    fuel returns a permutation of the set that lists every node after its predecessors in the
    set, and any other listing of the same set, in any order, returns the same list. -/
theorem topologicalSort_set_determined {α κ : Type} [LinearOrder α] [LinearOrder κ]
    (pred : α → List α) (ord : α → κ) {S : List α} (hS : S.Nodup)
    (hdag : ∀ x, ¬ Relation.TransGen (TopoSort.InSetEdge S pred) x x) {fuel : Nat}
    (hfuel : S.length + 1 ≤ fuel) :
    ∃ l, TopoSort.topologicalSort fuel S pred ord = some l ∧ l.Perm S ∧
      l.Pairwise (fun a b => b ∉ pred a) ∧
      ∀ S' : List α, S'.Nodup → S'.toFinset = S.toFinset →
        TopoSort.topologicalSort fuel S' pred ord = some l := by
  obtain ⟨rank, hrank⟩ := TopoSort.exists_rank_of_acyclic hdag
  obtain ⟨l, hl, hperm, hpw⟩ := TopoSort.topologicalSort_spec hrank ord hS hfuel
  refine ⟨l, hl, hperm, hpw, fun S' hS' hset => ?_⟩
  rw [TopoSort.topologicalSort_perm (List.perm_of_nodup_nodup_toFinset_eq hS' hS hset), hl]

/-- Nodes `2`, `0`, `1`, each with every smaller node as a predecessor. -/
theorem topologicalSort_set_determined_range :
    ([2, 0, 1] : List Nat).Nodup ∧
      (∀ x, ¬ Relation.TransGen (TopoSort.InSetEdge [2, 0, 1] List.range) x x) ∧
      ([2, 0, 1] : List Nat).length + 1 ≤ 4 ∧
      ∃ l, TopoSort.topologicalSort 4 [2, 0, 1] List.range (id : Nat → Nat) = some l ∧
        l.Perm [2, 0, 1] ∧ l.Pairwise (fun a b => b ∉ List.range a) ∧
        ∀ S' : List Nat, S'.Nodup → S'.toFinset = ([2, 0, 1] : List Nat).toFinset →
          TopoSort.topologicalSort 4 S' List.range id = some l :=
  have hrank : ∀ y ∈ ([2, 0, 1] : List Nat), ∀ x ∈ List.range y, x ∈ [2, 0, 1] → id x < id y := by
    decide
  have hdag := TopoSort.acyclic_of_rank hrank
  ⟨by decide, hdag, by decide, topologicalSort_set_determined List.range id (by decide) hdag
    (by decide)⟩

/-- The same-era part of an epoch set is a `HashSet` in the code and a list in the model:
    whichever listing of it the code iterates, the sort returns what the model's does. -/
theorem sort_sameEra_of_listing (fuel : Nat) (s : ConsensusGraphInner) (main : Nat)
    {l : List Nat} (hl : l.Nodup) (hset : l.toFinset =
      (((s.arena.node main).data.blocksetInOwnViewOfEpoch.filter
        fun idx => s.isSameEra idx main).dedup).toFinset) :
    TopoSort.topologicalSort fuel l s.arena.predecessorEdges (fun i => (s.arena.node i).hash) =
      TopoSort.topologicalSort fuel ((s.arena.node main).data.blocksetInOwnViewOfEpoch.filter
        fun idx => s.isSameEra idx main).dedup s.arena.predecessorEdges
        (fun i => (s.arena.node i).hash) :=
  TopoSort.topologicalSort_perm (List.perm_of_nodup_nodup_toFinset_eq hl (List.nodup_dedup _) hset)
    fuel

end Mazze.Consensus
