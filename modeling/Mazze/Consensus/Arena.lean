import Mathlib
import Mazze.Lib.Reach
import Mazze.Consensus.TimerChain

/-!
# The consensus arena, its past-set cache, and the epoch set it stands for

`ConsensusGraphInner` (`consensus_inner/mod.rs`) keeps its blocks in a `Slab` arena of
`ConsensusGraphNode`s, each naming its `parent` (or `NULL`) and its `referees` by arena
index. Beside each node's data the consensus caches the node's epoch set,
`blockset_in_own_view_of_epoch`. A flag `blockset_cleared` marks a set that was dropped
because it was large. A `PastSetCache` (`consensus/pastset_cache.rs`) holds up to 256
past sets, with least-recently-used eviction.

This module models the fields these read and write and nothing else:

* the node's `hash`, `parent`, `era_block` and `referees`;
* its epoch-set fields;
* the arena's occupied keys;
* the cache, whose four operations are as the source has them.

It also states what the cached data stands for. `Past a x y` says that `y` is `x` or in its
past along parent and referee edges. `EpochSet a main` is `Past(main)` without
`Past(parent(main))` and without `main`. A list `Represents` a set when it lists the set's
members once each.

The arena is a function on indices together with its occupied keys. Indexing a vacant key
panics in the source; the invariants of `Consensus.EpochSet` keep every read inside the
keys. `H256` hashes are numbers, ordered as the big-endian bytes are.
-/

set_option autoImplicit false

namespace Mazze.Consensus

/-! ## 1. Nodes and the arena -/

/-- The fields of `ConsensusGraphNodeData` that hold a block's epoch set. -/
structure ConsensusGraphNodeData where
  blocksetInOwnViewOfEpoch : List Nat
  orderedExecutableEpochBlocks : List Nat
  skippedEpochBlocks : List Nat
  blocksetCleared : Bool
  deriving DecidableEq, Repr

/-- `ConsensusGraphNodeData::new`: nothing computed yet, and the set marked cleared. -/
def ConsensusGraphNodeData.new : ConsensusGraphNodeData := ⟨[], [], [], true⟩

/-- The fields of `ConsensusGraphNode` that the epoch set is computed from. -/
structure ConsensusGraphNode where
  hash : Nat
  parent : Nat
  eraBlock : Nat
  referees : List Nat
  data : ConsensusGraphNodeData
  deriving DecidableEq, Repr

/-- What a vacant slot reads as: no parent, no referee. -/
def ConsensusGraphNode.vacant : ConsensusGraphNode := ⟨0, NULL, NULL, [], .new⟩

/-- `Slab<ConsensusGraphNode>`: the occupied keys, and the node at each index. -/
structure Arena where
  keys : Finset Nat
  node : Nat → ConsensusGraphNode

namespace Arena

/-- Write the data of the node at `i`. -/
def modifyData (a : Arena) (i : Nat) (f : ConsensusGraphNodeData → ConsensusGraphNodeData) :
    Arena :=
  ⟨a.keys, Function.update a.node i { a.node i with data := f (a.node i).data }⟩

@[simp] theorem modifyData_keys (a : Arena) (i : Nat) (f) : (a.modifyData i f).keys = a.keys :=
  rfl

theorem modifyData_node (a : Arena) (i j : Nat) (f) :
    (a.modifyData i f).node j =
      if j = i then { a.node i with data := f (a.node i).data } else a.node j := by
  simp only [modifyData, Function.update_apply]

@[simp] theorem modifyData_parent (a : Arena) (i j : Nat) (f) :
    ((a.modifyData i f).node j).parent = (a.node j).parent := by
  rw [modifyData_node]; split <;> simp_all

@[simp] theorem modifyData_referees (a : Arena) (i j : Nat) (f) :
    ((a.modifyData i f).node j).referees = (a.node j).referees := by
  rw [modifyData_node]; split <;> simp_all

@[simp] theorem modifyData_hash (a : Arena) (i j : Nat) (f) :
    ((a.modifyData i f).node j).hash = (a.node j).hash := by
  rw [modifyData_node]; split <;> simp_all

@[simp] theorem modifyData_eraBlock (a : Arena) (i j : Nat) (f) :
    ((a.modifyData i f).node j).eraBlock = (a.node j).eraBlock := by
  rw [modifyData_node]; split <;> simp_all

theorem modifyData_data (a : Arena) (i j : Nat) (f) :
    ((a.modifyData i f).node j).data = if j = i then f (a.node i).data else (a.node j).data := by
  rw [modifyData_node]; split <;> simp_all

@[simp] theorem modifyData_data_self (a : Arena) (i : Nat) (f) :
    ((a.modifyData i f).node i).data = f (a.node i).data := by
  simp [modifyData_data]

theorem modifyData_data_of_ne (a : Arena) {i j : Nat} (h : j ≠ i) (f) :
    ((a.modifyData i f).node j).data = (a.node j).data := by
  simp [modifyData_data, h]

/-- Two writes of one node's data are one write. -/
@[simp] theorem modifyData_modifyData (a : Arena) (i : Nat) (f g) :
    (a.modifyData i f).modifyData i g = a.modifyData i (g ∘ f) := by
  simp only [modifyData, Function.update_self, Function.update_idem]
  rfl

@[simp] theorem modifyData_id (a : Arena) (i : Nat) : a.modifyData i id = a := by
  simp only [modifyData, id, Function.update_eq_self]

/-- The edges the epoch-set searches follow (`mod.rs` L895-L920, L1518-L1530): the
    parent, unless `NULL`, then the referees. -/
def parentAndReferees (a : Arena) (i : Nat) : List Nat :=
  (if (a.node i).parent = NULL then [] else [(a.node i).parent]) ++ (a.node i).referees

/-- `DAG::predecessor_edges` (`dag/src/lib.rs` L177-L186) for `ConsensusGraphInner`: the
    referees, then the parent unless `NULL`. -/
def predecessorEdges (a : Arena) (i : Nat) : List Nat :=
  (a.node i).referees ++ if (a.node i).parent = NULL then [] else [(a.node i).parent]

theorem mem_predecessorEdges {a : Arena} {i j : Nat} :
    j ∈ a.predecessorEdges i ↔ j ∈ a.parentAndReferees i := by
  simp only [predecessorEdges, parentAndReferees, List.mem_append]
  tauto

/-- Writing a node's data leaves every edge as it was. -/
@[simp] theorem parentAndReferees_modifyData (a : Arena) (i : Nat) (f) :
    (a.modifyData i f).parentAndReferees = a.parentAndReferees := by
  funext j
  simp [parentAndReferees]

@[simp] theorem predecessorEdges_modifyData (a : Arena) (i : Nat) (f) :
    (a.modifyData i f).predecessorEdges = a.predecessorEdges := by
  funext j
  simp [predecessorEdges]

/-- `is_legacy_block` (`mod.rs` L858-L860): a block outside the current era, its era block
    `NULL`. Such a block is a stub (`insert_out_era_block`) or was left outside the subtree
    of a new era genesis by a checkpoint. -/
def isLegacyBlock (a : Arena) (index : Nat) : Bool := (a.node index).eraBlock == NULL

theorem isLegacyBlock_eq_false {a : Arena} {index : Nat} :
    a.isLegacyBlock index = false ↔ (a.node index).eraBlock ≠ NULL := by
  simp [isLegacyBlock]

@[simp] theorem isLegacyBlock_modifyData (a : Arena) (i : Nat) (f) :
    (a.modifyData i f).isLegacyBlock = a.isLegacyBlock := by
  funext j
  simp [isLegacyBlock]

theorem parent_mem_parentAndReferees {a : Arena} {i : Nat} (h : (a.node i).parent ≠ NULL) :
    (a.node i).parent ∈ a.parentAndReferees i := by
  simp [parentAndReferees, h]

theorem referee_mem_parentAndReferees {a : Arena} {i r : Nat} (h : r ∈ (a.node i).referees) :
    r ∈ a.parentAndReferees i := by
  simp [parentAndReferees, h]

/-! ## 2. The past and the epoch set -/

/-- `y` is `x` or in the past of `x`: reached along parent and referee edges. -/
def Past (a : Arena) (x y : Nat) : Prop := Reachability.Reach a.parentAndReferees x y

/-- The epoch set of `main` in its own view: its past, minus the past of its parent, minus
    `main` itself. -/
def EpochSet (a : Arena) (main y : Nat) : Prop :=
  a.Past main y ∧ ¬ a.Past (a.node main).parent y ∧ y ≠ main

/-- `x`, followed `k` steps along parents. -/
def ancestor (a : Arena) (k : Nat) (x : Nat) : Nat := (fun i => (a.node i).parent)^[k] x

/-- `a` is one of `x`'s parental ancestors, `x` itself included. -/
def IsAncestor (a : Arena) (anc x : Nat) : Prop := ∃ k, a.ancestor k x = anc

@[simp] theorem Past_modifyData (a : Arena) (i : Nat) (f) : (a.modifyData i f).Past = a.Past := by
  funext x y
  simp [Past]

@[simp] theorem EpochSet_modifyData (a : Arena) (i : Nat) (f) :
    (a.modifyData i f).EpochSet = a.EpochSet := by
  funext x y
  simp [EpochSet]

@[simp] theorem ancestor_modifyData (a : Arena) (i : Nat) (f) :
    (a.modifyData i f).ancestor = a.ancestor := by
  funext k x
  simp [ancestor]

theorem Past.refl (a : Arena) (x : Nat) : a.Past x x := Relation.ReflTransGen.refl

theorem Past.trans {a : Arena} {x y z : Nat} (h₁ : a.Past x y) (h₂ : a.Past y z) :
    a.Past x z := Relation.ReflTransGen.trans h₁ h₂

theorem Past.of_parent {a : Arena} {x y : Nat} (hp : (a.node x).parent ≠ NULL)
    (h : a.Past (a.node x).parent y) : a.Past x y :=
  Reachability.reach_of_mem (parent_mem_parentAndReferees hp) h

theorem Past.of_referee {a : Arena} {x r y : Nat} (hr : r ∈ (a.node x).referees)
    (h : a.Past r y) : a.Past x y :=
  Reachability.reach_of_mem (referee_mem_parentAndReferees hr) h

/-- **The past of a block** is the block, its parent's past, and its referees' pasts. -/
theorem past_iff {a : Arena} {x y : Nat} :
    a.Past x y ↔ x = y ∨ ((a.node x).parent ≠ NULL ∧ a.Past (a.node x).parent y) ∨
      ∃ r ∈ (a.node x).referees, a.Past r y := by
  unfold Past
  rw [Reachability.reach_iff]
  simp only [parentAndReferees, List.mem_append]
  constructor
  · rintro (h | ⟨z, hz | hz, hzy⟩)
    · exact Or.inl h
    · split at hz
      · simp at hz
      · simp only [List.mem_singleton] at hz
        subst hz
        exact Or.inr (Or.inl ⟨by assumption, hzy⟩)
    · exact Or.inr (Or.inr ⟨z, hz, hzy⟩)
  · rintro (h | ⟨hp, h⟩ | ⟨r, hr, h⟩)
    · exact Or.inl h
    · exact Or.inr ⟨_, Or.inl (by simp [hp]), h⟩
    · exact Or.inr ⟨r, Or.inr hr, h⟩

/-- **The past splits at the parent.** A block's past is its parent's past, the block, and
    its epoch set. -/
theorem past_iff_parent_or_epochSet {a : Arena} {x y : Nat} (hp : (a.node x).parent ≠ NULL) :
    a.Past x y ↔ a.Past (a.node x).parent y ∨ y = x ∨ a.EpochSet x y := by
  constructor
  · intro h
    by_cases hpar : a.Past (a.node x).parent y
    · exact Or.inl hpar
    · by_cases hyx : y = x
      · exact Or.inr (Or.inl hyx)
      · exact Or.inr (Or.inr ⟨h, hpar, hyx⟩)
  · rintro (h | rfl | h)
    · exact Past.of_parent hp h
    · exact Past.refl a y
    · exact h.1

/-- A parent's past is closed: no edge leaves it. -/
theorem closed_past (a : Arena) (x : Nat) :
    Reachability.Closed a.parentAndReferees (a.Past x) :=
  fun _ hz _ hw => Relation.ReflTransGen.tail hz hw

@[simp] theorem ancestor_zero (a : Arena) (x : Nat) : a.ancestor 0 x = x := rfl

theorem ancestor_succ (a : Arena) (k x : Nat) :
    a.ancestor (k + 1) x = a.ancestor k (a.node x).parent := rfl

theorem ancestor_succ' (a : Arena) (k x : Nat) :
    a.ancestor (k + 1) x = (a.node (a.ancestor k x)).parent :=
  Function.iterate_succ_apply' _ k x

theorem IsAncestor.refl (a : Arena) (x : Nat) : a.IsAncestor x x := ⟨0, rfl⟩

theorem IsAncestor.trans {a : Arena} {x y z : Nat} (hxy : a.IsAncestor x y)
    (hyz : a.IsAncestor y z) : a.IsAncestor x z := by
  obtain ⟨j, rfl⟩ := hxy
  obtain ⟨k, rfl⟩ := hyz
  exact ⟨j + k, Function.iterate_add_apply _ j k z⟩

/-- An ancestor of the parent is an ancestor. -/
theorem IsAncestor.of_parent {a : Arena} {x z : Nat} (h : a.IsAncestor x (a.node z).parent) :
    a.IsAncestor x z := by
  obtain ⟨k, rfl⟩ := h
  exact ⟨k + 1, ancestor_succ a k z⟩

/-- An ancestor other than `NULL` is in the past. -/
theorem past_ancestor {a : Arena} (k : Nat) (x : Nat) (h : a.ancestor k x ≠ NULL)
    (hnull : (a.node NULL).parent = NULL) : a.Past x (a.ancestor k x) := by
  induction k generalizing x with
  | zero => exact Past.refl a x
  | succ k ih =>
    rw [ancestor_succ] at h ⊢
    -- once the chain reaches `NULL` it stays there, so the parent of `x` is not `NULL`
    have hp : (a.node x).parent ≠ NULL := by
      intro hp
      rw [hp] at h
      apply h
      clear ih h hp
      induction k with
      | zero => rfl
      | succ k ihk => rw [ancestor_succ', ihk, hnull]
    exact Past.of_parent hp (ih _ h)

end Arena

/-- A list that lists the members of `P`, each once. -/
def Represents (l : List Nat) (P : Nat → Prop) : Prop := l.Nodup ∧ ∀ y, y ∈ l ↔ P y

/-! ## 3. The past-set cache -/

/-- `MAX_PASTSET_CACHE_CAP`. -/
def maxPastsetCacheCap : Nat := 256

/-- `PastSetCache`: the `HashMap` from an arena index to its past set and the stamp of its
    last use, as an association list, and the next stamp `entry`. -/
structure PastSetCache where
  cache : List (Nat × Finset Nat × Nat)
  entry : Nat

namespace PastSetCache

/-- `HashMap::get` on the map. -/
def lookup (c : PastSetCache) (me : Nat) : Option (Finset Nat × Nat) :=
  (c.cache.find? fun kv => kv.1 == me).map (·.2)

/-- `get`: the cached past set of `me`. -/
def get (c : PastSetCache) (me : Nat) : Option (Finset Nat) := (c.lookup me).map (·.1)

/-- The scan of `update` for the entry to evict: the key of least stamp below `entry`, and
    that stamp (`entry` itself when no stamp is below it). -/
def leastEntry (c : PastSetCache) : Nat × Nat :=
  c.cache.foldl (fun acc kv => if kv.2.2 < acc.2 then (kv.1, kv.2.2) else acc) (0, c.entry)

/-- `HashMap::insert`: the entry at `me` replaced, or added. -/
def insertEntry (cache : List (Nat × Finset Nat × Nat)) (me : Nat) (v : Finset Nat × Nat) :
    List (Nat × Finset Nat × Nat) :=
  cache.filter (fun kv => kv.1 != me) ++ [(me, v)]

/-- The eviction step of `update`: when the map is full, drop the entry the scan finds,
    asserting that it found one. -/
def evictLeastRecent (c : PastSetCache) : Except String (List (Nat × Finset Nat × Nat)) :=
  if c.cache.length = maxPastsetCacheCap then
    if c.leastEntry.2 = c.entry then throw "assertion failed: min_entry != self.entry"
    else pure (c.cache.filter fun kv => kv.1 != c.leastEntry.1)
  else pure c.cache

/-- `update`: evict when full, then store `pastset` at `me` with a new stamp. -/
def update (c : PastSetCache) (me : Nat) (pastset : Finset Nat) : Except String PastSetCache := do
  let cache ← c.evictLeastRecent
  pure ⟨insertEntry cache me (pastset, c.entry), c.entry + 1⟩

/-- `get_and_update_cache`: the cached past set of `me`, its stamp renewed. -/
def getAndUpdateCache (c : PastSetCache) (me : Nat) : PastSetCache × Option (Finset Nat) :=
  match c.get me with
  | some s =>
    (⟨c.cache.map fun kv => if kv.1 = me then (kv.1, kv.2.1, c.entry) else kv, c.entry + 1⟩,
      some s)
  | none => (c, none)

/-- `intersect_update`: drop the entries of the blocks in `outside`, and remove those blocks
    from every other entry. -/
def intersectUpdate (c : PastSetCache) (outside : Finset Nat) : PastSetCache :=
  ⟨(c.cache.filter fun kv => kv.1 ∉ outside).map fun kv => (kv.1, kv.2.1 \ outside, kv.2.2),
    c.entry⟩

/-- A cache in good order, every entry satisfying `P`: keys unique, as in a map; stamps
    below `entry`; and each past set as `P` says for its key. -/
structure Good (P : Nat → Finset Nat → Prop) (c : PastSetCache) : Prop where
  keys_nodup : (c.cache.map (·.1)).Nodup
  stamps_lt : ∀ kv ∈ c.cache, kv.2.2 < c.entry
  sound : ∀ kv ∈ c.cache, P kv.1 kv.2.1

theorem mem_of_get {c : PastSetCache} {me : Nat} {s : Finset Nat} (h : c.get me = some s) :
    ∃ st, (me, s, st) ∈ c.cache := by
  simp only [get, lookup, Option.map_map, Option.map_eq_some_iff, Function.comp_def] at h
  obtain ⟨kv, hkv, rfl⟩ := h
  have hmem := List.mem_of_find?_eq_some hkv
  have hkey : kv.1 = me := by simpa using List.find?_some hkv
  obtain ⟨k, s, st⟩ := kv
  simp only at hkey
  subst hkey
  exact ⟨st, hmem⟩

/-- **A cached past set satisfies `P`.** -/
theorem Good.get {P : Nat → Finset Nat → Prop} {c : PastSetCache} (h : Good P c) {me : Nat}
    {s : Finset Nat} (hs : c.get me = some s) : P me s := by
  obtain ⟨st, hmem⟩ := mem_of_get hs
  exact h.sound _ hmem

theorem get_of_mem {c : PastSetCache} (hnd : (c.cache.map (·.1)).Nodup) {me : Nat}
    {s : Finset Nat} {st : Nat} (h : (me, s, st) ∈ c.cache) : c.get me = some s := by
  simp only [get, lookup, Option.map_map, Function.comp_def]
  cases hf : c.cache.find? (fun kv => kv.1 == me) with
  | none =>
    have := List.find?_eq_none.mp hf _ h
    simp at this
  | some kv =>
    have hmem := List.mem_of_find?_eq_some hf
    have hkey : kv.1 = me := by simpa using List.find?_some hf
    -- two entries of one key are one entry
    have := List.inj_on_of_nodup_map hnd hmem h hkey
    simp [this]

/-- The eviction scan finds a stamp below `entry` when the map is not empty. -/
theorem leastEntry_lt {c : PastSetCache} (hlt : ∀ kv ∈ c.cache, kv.2.2 < c.entry)
    (hne : c.cache ≠ []) : c.leastEntry.2 < c.entry := by
  have key : ∀ (l : List (Nat × Finset Nat × Nat)) (acc : Nat × Nat),
      (l.foldl (fun acc kv => if kv.2.2 < acc.2 then (kv.1, kv.2.2) else acc) acc).2 ≤ acc.2 ∧
      ∀ kv ∈ l, (l.foldl (fun acc kv => if kv.2.2 < acc.2 then (kv.1, kv.2.2) else acc) acc).2
        ≤ kv.2.2 := by
    intro l
    induction l with
    | nil => intro acc; simp
    | cons kv l ih =>
      intro acc
      -- one turn of the scan lowers the running least stamp to at most `kv`'s
      have hstep : (if kv.2.2 < acc.2 then (kv.1, kv.2.2) else acc).2 ≤ acc.2 ∧
          (if kv.2.2 < acc.2 then (kv.1, kv.2.2) else acc).2 ≤ kv.2.2 := by
        split <;> omega
      obtain ⟨h₁, h₂⟩ := ih (if kv.2.2 < acc.2 then (kv.1, kv.2.2) else acc)
      simp only [List.foldl_cons]
      refine ⟨h₁.trans hstep.1, fun kv' hkv' => ?_⟩
      rcases List.mem_cons.mp hkv' with rfl | hkv'
      · exact h₁.trans hstep.2
      · exact h₂ kv' hkv'
  obtain ⟨kv, hkv⟩ := List.exists_mem_of_ne_nil _ hne
  exact Nat.lt_of_le_of_lt ((key c.cache (0, c.entry)).2 kv hkv) (hlt kv hkv)

/-- **`update` does not panic on a good cache, and keeps it good.** The new entry is found
    under its key. -/
theorem Good.update {P : Nat → Finset Nat → Prop} {c : PastSetCache} (h : Good P c) {me : Nat}
    {s : Finset Nat} (hs : P me s) :
    ∃ c', c.update me s = .ok c' ∧ Good P c' ∧ c'.get me = some s := by
  -- the map that the new entry is inserted into: `c.cache`, less one entry when full
  obtain ⟨cache, hcache, hsub⟩ : ∃ cache, c.evictLeastRecent = .ok cache ∧
      cache.Sublist c.cache := by
    unfold evictLeastRecent
    split
    · have hne : c.cache ≠ [] := fun h' => by simp_all [maxPastsetCacheCap]
      have := leastEntry_lt h.stamps_lt hne
      rw [if_neg (by omega)]
      exact ⟨_, rfl, List.filter_sublist⟩
    · exact ⟨_, rfl, List.Sublist.refl _⟩
  have hnew : (insertEntry cache me (s, c.entry)).map (·.1) =
      (cache.filter fun kv => kv.1 != me).map (·.1) ++ [me] := by simp [insertEntry]
  have hkeys : ((cache.filter fun kv => kv.1 != me).map (·.1)).Nodup :=
    ((h.keys_nodup.sublist (hsub.map _))).sublist ((List.filter_sublist).map _)
  have hgood : Good P ⟨insertEntry cache me (s, c.entry), c.entry + 1⟩ := by
    refine ⟨?_, ?_, ?_⟩
    · rw [hnew]
      refine List.nodup_append.mpr ⟨hkeys, List.nodup_singleton _, ?_⟩
      intro a ha b hb hab
      simp only [List.mem_singleton] at hb
      subst hb hab
      simp at ha
    · intro kv hkv
      simp only [insertEntry, List.mem_append, List.mem_filter, List.mem_singleton] at hkv
      rcases hkv with ⟨hkv, -⟩ | rfl
      · exact Nat.lt_succ_of_lt (h.stamps_lt kv (hsub.subset hkv))
      · exact Nat.lt_succ_self _
    · intro kv hkv
      simp only [insertEntry, List.mem_append, List.mem_filter, List.mem_singleton] at hkv
      rcases hkv with ⟨hkv, -⟩ | rfl
      · exact h.sound kv (hsub.subset hkv)
      · exact hs
  have hget : (⟨insertEntry cache me (s, c.entry), c.entry + 1⟩ : PastSetCache).get me = some s :=
    get_of_mem hgood.keys_nodup (by simp [insertEntry] : (me, s, c.entry) ∈ _)
  refine ⟨_, ?_, hgood, hget⟩
  simp only [PastSetCache.update, hcache]
  rfl

/-- `get_and_update_cache` answers `get`, and renews a stamp only. -/
theorem getAndUpdateCache_snd (c : PastSetCache) (me : Nat) :
    (c.getAndUpdateCache me).2 = c.get me := by
  unfold getAndUpdateCache
  split <;> simp_all

theorem Good.getAndUpdateCache {P : Nat → Finset Nat → Prop} {c : PastSetCache}
    (h : Good P c) (me : Nat) : Good P (c.getAndUpdateCache me).1 := by
  unfold PastSetCache.getAndUpdateCache
  split
  · refine ⟨?_, ?_, ?_⟩
    · simpa [List.map_map, Function.comp_def, apply_ite] using h.keys_nodup
    · intro kv hkv
      simp only [List.mem_map] at hkv
      obtain ⟨kv', hkv', rfl⟩ := hkv
      split
      · exact Nat.lt_succ_self _
      · exact Nat.lt_succ_of_lt (h.stamps_lt kv' hkv')
    · intro kv hkv
      simp only [List.mem_map] at hkv
      obtain ⟨kv', hkv', rfl⟩ := hkv
      split
      · exact h.sound kv' hkv'
      · exact h.sound kv' hkv'
  · exact h

theorem Good.mono {P Q : Nat → Finset Nat → Prop} {c : PastSetCache} (h : Good P c)
    (hPQ : ∀ k s, P k s → Q k s) : Good Q c :=
  ⟨h.keys_nodup, h.stamps_lt, fun kv hkv => hPQ _ _ (h.sound kv hkv)⟩

/-- Renewing a stamp keeps the set found under the key. -/
theorem Good.getAndUpdateCache_get {P : Nat → Finset Nat → Prop} {c : PastSetCache}
    (h : Good P c) {me : Nat} {s : Finset Nat} (hs : c.get me = some s) :
    (c.getAndUpdateCache me).1.get me = some s := by
  obtain ⟨st, hmem⟩ := mem_of_get hs
  have hmem' : (me, s, c.entry) ∈ (c.getAndUpdateCache me).1.cache := by
    unfold PastSetCache.getAndUpdateCache
    rw [hs]
    exact List.mem_map.mpr ⟨(me, s, st), hmem, by simp⟩
  exact get_of_mem (h.getAndUpdateCache me).keys_nodup hmem'

/-- **`intersect_update` keeps a cache good**, for a property that survives dropping the
    outside blocks from the set of a key that is not outside. -/
theorem Good.intersectUpdate {P Q : Nat → Finset Nat → Prop} {c : PastSetCache}
    (h : Good P c) (outside : Finset Nat)
    (hPQ : ∀ k s, P k s → k ∉ outside → Q k (s \ outside)) :
    Good Q (c.intersectUpdate outside) := by
  refine ⟨?_, ?_, ?_⟩
  · simp only [PastSetCache.intersectUpdate, List.map_map, Function.comp_def]
    exact (h.keys_nodup.sublist ((List.filter_sublist).map _))
  · intro kv hkv
    simp only [PastSetCache.intersectUpdate, List.mem_map, List.mem_filter] at hkv
    obtain ⟨kv', ⟨hkv', -⟩, rfl⟩ := hkv
    exact h.stamps_lt kv' hkv'
  · intro kv hkv
    simp only [PastSetCache.intersectUpdate, List.mem_map, List.mem_filter] at hkv
    obtain ⟨kv', ⟨hkv', hout⟩, rfl⟩ := hkv
    exact hPQ _ _ (h.sound kv' hkv') (by simpa using hout)

end PastSetCache

/-! ## 4. The consensus state -/

/-- The fields of `ConsensusGraphInner` that the epoch-set code reads and writes. -/
structure ConsensusGraphInner where
  arena : Arena
  mainChain : List Nat
  pastsetCache : PastSetCache

/-- `EPOCH_EXECUTED_BLOCK_BOUND`. -/
def epochExecutedBlockBound : Nat := 200

/-- `BLOCKSET_IN_OWN_VIEW_OF_EPOCH_CAP`. -/
def blocksetInOwnViewOfEpochCap : Nat := 1000

end Mazze.Consensus
