import Mazze.Storage.Cache.LruSpec

/-!
# The `LRU` refines a recency list

What the LRU is for: it holds at most `capacity` keys, most recently accessed first. An access
moves a held key to the front, and pushes a new one in front, evicting the least recent key
when the cache is full; a delete takes the key out. `RecencyList` states that policy on a list
of keys, and `lru_refines_recency_list` says that every run of `access` and `delete` calls from
`LRU::new` answers as the policy does, with a cache that represents the policy's list exactly:
following `next` from `head` visits its keys in order and ends at `rear`, the handles hold the
predecessors' positions, and keys not held have the handle `NULL_POS`.
-/

set_option autoImplicit false

namespace Mazze.Storage.Cache

variable {K : Type}

/-! ## The policy -/

namespace RecencyList

variable [DecidableEq K]

/-- An access of `k` on the list `ks` of a cache of capacity `c`: the new list and the
    answer. -/
def access (c : Nat) (ks : List K) (k : K) : List K × CacheAccessResult K :=
  if k ∈ ks then (k :: ks.erase k, .hit)
  else if ks.length < c then (k :: ks, .missInsert)
  else (k :: ks.dropLast, .missReplaced ks.getLast?.toList [])

/-- A delete of `k`. -/
def delete (ks : List K) (k : K) : List K := ks.erase k

/-- An access keeps the keys distinct and within a positive capacity. -/
theorem access_wf {c : Nat} {ks : List K} (hc : 0 < c) (hnd : ks.Nodup) (hlen : ks.length ≤ c)
    (k : K) : (access c ks k).1.Nodup ∧ (access c ks k).1.length ≤ c := by
  unfold access
  by_cases hk : k ∈ ks
  · rw [if_pos hk]
    refine ⟨(List.perm_cons_erase hk).nodup_iff.mp hnd, ?_⟩
    rw [List.length_cons, List.length_erase_of_mem hk]
    have := List.length_pos_of_mem hk
    omega
  · rw [if_neg hk]
    split_ifs with hlt
    · exact ⟨List.nodup_cons.mpr ⟨hk, hnd⟩, hlt⟩
    · refine ⟨List.nodup_cons.mpr ⟨fun hm => hk ((List.dropLast_sublist ks).subset hm),
        hnd.sublist (List.dropLast_sublist ks)⟩, ?_⟩
      rw [List.length_cons, List.length_dropLast]
      omega

theorem delete_wf {c : Nat} {ks : List K} (hnd : ks.Nodup) (hlen : ks.length ≤ c) (k : K) :
    (delete ks k).Nodup ∧ (delete ks k).length ≤ c :=
  ⟨hnd.erase k, List.length_erase_le.trans hlen⟩

end RecencyList

/-- A call on the cache. -/
inductive Call (K : Type) where
  | access (k : K)
  | delete (k : K)
  deriving DecidableEq, Repr

/-! ## The representation -/

/-- The entries met following `next` from the position `pos`, `n` nodes long: each node's key
    with its position. The last node's `next` is not read. -/
def nodesFrom (recent : List (DoubleLinkListNode K)) : Nat → Nat → Option (List (K × Nat))
  | _, 0 => some []
  | pos, n + 1 => do
    let node ← recent[pos]?
    let rest ← if n = 0 then some [] else nodesFrom recent node.next n
    pure ((node.cacheIndex, pos) :: rest)

/-- The cache and its store represent exactly the list of keys `ks`. -/
structure Represents (l : LRU K) (store : K → LRUHandle) (ks : List K) : Prop where
  /-- following `next` from `head` visits the keys in order, at the positions of `ents`, and
      ends at `rear`; the head's handle is `HEAD_POS`, every other key's its predecessor's
      position -/
  nodes : ∃ ents : List (K × Nat), ents.map Prod.fst = ks ∧
    nodesFrom l.recent l.head ks.length = some ents ∧ (∀ e ∈ ents.getLast?, l.rear = e.2) ∧
    (∀ e ∈ ents.head?, store e.1 = ⟨headPos⟩) ∧ ents.IsChain (fun e e' => store e'.1 = ⟨e.2⟩)
  size_eq : l.size = ks.length
  absent : ∀ k, k ∉ ks → store k = ⟨nullPos⟩

section Represents

variable {r : List (DoubleLinkListNode K)} {s : K → LRUHandle} {hd tl : Nat}

/-- A laid out list is what following `next` from its head visits. -/
theorem Links.nodesFrom_eq {ents : List (K × Nat)} (h : Links r s hd tl ents) :
    nodesFrom r hd ents.length = some ents := by
  -- induction on the list, from any head: the chain's links lead from each entry to the next
  suffices key : ∀ (ents : List (K × Nat)) (hd : Nat),
      (∀ e ∈ ents, (r[e.2]?).map DoubleLinkListNode.cacheIndex = some e.1) →
      ents.IsChain (Linked r s) → (∀ e ∈ ents.head?, hd = e.2) →
      nodesFrom r hd ents.length = some ents from
    key ents hd h.key h.chain fun e he => (h.head e he).1
  intro ents
  induction ents with
  | nil => intro _ _ _ _; rfl
  | cons e rest ih =>
    intro hd hkey hchain hhd
    obtain rfl : hd = e.2 := hhd e rfl
    obtain ⟨node, hnode, hnk⟩ := Option.map_eq_some_iff.mp (hkey e List.mem_cons_self)
    cases rest with
    | nil => simp [nodesFrom, hnode, hnk]
    | cons f rest' =>
      have hef := (List.isChain_cons_cons.mp hchain).1
      have hnext : node.next = f.2 := by
        have h1 := hef.1
        rw [hnode] at h1
        exact Option.some.inj h1
      have ih' : nodesFrom r node.next (rest'.length + 1) = some (f :: rest') :=
        ih node.next (fun x hx => hkey x (List.mem_cons_of_mem e hx))
          (List.isChain_cons_cons.mp hchain).2 (fun x hx => by simp_all)
      rw [List.length_cons, nodesFrom, hnode]
      simp [ih', hnk]

/-- The layout is the representation of its keys. -/
theorem Layout.represents {l : LRU K} {ents : List (K × Nat)} (h : Layout l s ents) :
    Represents l s (ents.map Prod.fst) where
  nodes := ⟨ents, rfl, by rw [List.length_map]; exact h.nodesFrom_eq, h.rear,
    fun e he => (h.head e he).2, h.chain.imp fun _ _ hl => hl.2⟩
  size_eq := by rw [List.length_map, h.length_eq]
  absent := h.absent

end Represents

variable [DecidableEq K]

/-- A run of the policy from the list `ks`: the final list, and the answers of the accesses. -/
def RecencyList.run (c : Nat) : List (Call K) → List K → List K × List (CacheAccessResult K)
  | [], ks => (ks, [])
  | .access k :: cs, ks =>
    let r := RecencyList.access c ks k
    let rest := RecencyList.run c cs r.1
    (rest.1, r.2 :: rest.2)
  | .delete k :: cs, ks => RecencyList.run c cs (RecencyList.delete ks k)

/-- The same run on the cache and its store; `none` if a call reads out of bounds or panics. -/
def LRU.runCalls : List (Call K) → LRU K → (K → LRUHandle) →
    Option (LRU K × (K → LRUHandle) × List (CacheAccessResult K))
  | [], l, store => some (l, store, [])
  | .access k :: cs, l, store => do
    let (l, store, r) ← l.access k store
    let (l, store, rs) ← LRU.runCalls cs l store
    pure (l, store, r :: rs)
  | .delete k :: cs, l, store => do
    let (l, store) ← l.delete k store
    LRU.runCalls cs l store

/-! ## Runs -/

section Runs

variable {l : LRU K} {s : K → LRUHandle} {ents : List (K × Nat)}

/-- An access answers as the policy does, and lays out the policy's new list. -/
theorem Layout.access (h : Layout l s ents) (hc : 0 < l.capacity) (k : K) :
    ∃ l' s' ents', l.access k s =
        some (l', s', (RecencyList.access l.capacity (ents.map Prod.fst) k).2) ∧
      Layout l' s' ents' ∧
      ents'.map Prod.fst = (RecencyList.access l.capacity (ents.map Prod.fst) k).1 ∧
      l'.capacity = l.capacity := by
  by_cases hk : k ∈ ents.map Prod.fst
  · -- a hit: the key's entry moves to the front
    obtain ⟨e, hke⟩ : ∃ e, (k, e) ∈ ents := by
      obtain ⟨⟨k', e⟩, hke, hk'⟩ := List.mem_map.mp hk
      exact ⟨e, hk' ▸ hke⟩
    obtain ⟨A, B, rfl⟩ := List.append_of_mem hke
    have hkA : k ∉ A.map Prod.fst := fun hkA => by
      obtain ⟨x, hx, hxk⟩ := List.mem_map.mp hkA
      exact map_ne_of_nodup_middle h.nodup_keys (List.mem_append_left B hx) hxk
    have hmodel : RecencyList.access l.capacity ((A ++ (k, e) :: B).map Prod.fst) k =
        (k :: (A ++ B).map Prod.fst, .hit) := by
      rw [RecencyList.access, if_pos hk, List.map_append, List.map_cons,
        List.erase_append_right _ hkA, List.erase_cons_head, List.map_append]
    rw [hmodel]
    rcases List.eq_nil_or_concat' A with rfl | ⟨A', p, rfl⟩
    · -- the most recent key: nothing moves
      obtain ⟨-, hsk⟩ := h.head (k, e) (by simp)
      exact ⟨l, s, _, by simp [LRU.access, hsk, isHit_of_lt_nullPos headPos_lt_nullPos,
        isMostRecentlyAccessed_headPos], h, by simp, rfl⟩
    · have hpk : Linked l.recent s p (k, e) := h.linked_append p (by simp) (k, e) (by simp)
      have hp : p.2 < headPos := h.pos_lt_headPos (by simp)
      have h' : Layout l s (A' ++ p :: (k, e) :: B) := by simpa using h
      obtain ⟨l', s', hhit, hl', hcap⟩ := h'.accessHit
      exact ⟨l', s', _, by simp [LRU.access, hpk.2, isHit_of_lt_nullPos
        (hp.trans headPos_lt_nullPos), isMostRecentlyAccessed_of_lt hp, hhit], hl', by simp, hcap⟩
  have hsk : s k = ⟨nullPos⟩ := h.absent k hk
  have hlen : (ents.map Prod.fst).length = l.size := by rw [List.length_map, h.length_eq]
  by_cases hlt : l.size < l.capacity
  · -- a miss with room left: the key is pushed in front
    obtain ⟨l', s', hins, hl', hcap⟩ := h.accessInsert hk hlt
    exact ⟨l', s', _, by simp [LRU.access, hsk, isHit_nullPos, hlt, hins, RecencyList.access, hk,
      hlen], hl', by simp [RecencyList.access, hk, hlen, hlt], hcap⟩
  · -- a miss on a full cache: the rear's key is evicted
    obtain ⟨a, z, rfl⟩ : ∃ a z, ents = a ++ [z] := by
      rcases List.eq_nil_or_concat' ents with hnil | ⟨a, z, hz⟩
      · subst hnil
        simp only [List.map_nil, List.length_nil] at hlen
        omega
      · exact ⟨a, z, hz⟩
    have hmodel : RecencyList.access l.capacity ((a ++ [z]).map Prod.fst) k =
        (k :: a.map Prod.fst, .missReplaced [z.1] []) := by
      rw [RecencyList.access, if_neg hk, if_neg (hlen ▸ hlt)]
      simp
    obtain ⟨l', s', hrep, hl', hcap⟩ := h.accessReplace hk
    rw [hmodel]
    exact ⟨l', s', _, by simp [LRU.access, hsk, isHit_nullPos, hlt, hrep], hl', by simp, hcap⟩

/-- Every run of calls answers as the policy does, and lays out the policy's final list. -/
theorem Layout.runCalls (h : Layout l s ents) (hc : 0 < l.capacity) (calls : List (Call K)) :
    ∃ l' s' ents', LRU.runCalls calls l s =
        some (l', s', (RecencyList.run l.capacity calls (ents.map Prod.fst)).2) ∧
      Layout l' s' ents' ∧
      ents'.map Prod.fst = (RecencyList.run l.capacity calls (ents.map Prod.fst)).1 ∧
      l'.capacity = l.capacity := by
  -- induction on the calls, from any laid out state
  induction calls generalizing l s ents with
  | nil => exact ⟨l, s, ents, rfl, h, rfl, rfl⟩
  | cons call cs ih =>
    cases call with
    | access k =>
      obtain ⟨l₁, s₁, ents₁, hstep, h₁, hkeys₁, hcap₁⟩ := h.access hc k
      obtain ⟨l', s', ents', hrun, h', hkeys', hcap'⟩ := ih h₁ (hcap₁ ▸ hc)
      rw [hcap₁, hkeys₁] at hrun hkeys'
      exact ⟨l', s', ents', by simp [LRU.runCalls, RecencyList.run, hstep, hrun], h', hkeys',
        hcap'.trans hcap₁⟩
    | delete k =>
      obtain ⟨l₁, s₁, ents₁, hstep, h₁, hkeys₁, hcap₁⟩ := h.delete k
      obtain ⟨l', s', ents', hrun, h', hkeys', hcap'⟩ := ih h₁ (hcap₁ ▸ hc)
      rw [hcap₁, hkeys₁] at hrun hkeys'
      exact ⟨l', s', ents', by simp [LRU.runCalls, RecencyList.run, RecencyList.delete, hstep, hrun],
        h', hkeys', hcap'.trans hcap₁⟩

end Runs

theorem lru_refines_recency_list {c : Nat} (hc : 1 ≤ c) (hcn : c < nullPos)
    (calls : List (Call K)) :
    ∃ l₀ l s, LRU.new c = some l₀ ∧
      LRU.runCalls calls l₀ (fun _ => ⟨nullPos⟩) = some (l, s, (RecencyList.run c calls []).2) ∧
      Represents l s (RecencyList.run c calls []).1 ∧
      (RecencyList.run c calls []).1.Nodup ∧ (RecencyList.run c calls []).1.length ≤ c := by
  have h₀ : Layout (⟨0, c, nullPos, headPos, []⟩ : LRU K) (fun _ => ⟨nullPos⟩) [] :=
    { toLinks := Links.nil, perm := by simp, length_recent := rfl, absent := fun _ _ => rfl,
      size_le := Nat.zero_le c, capacity_lt := hcn }
  obtain ⟨l, s, ents, hrun, h, hkeys, hcap⟩ := h₀.runCalls hc calls
  dsimp only at hrun hkeys hcap
  rw [List.map_nil] at hrun hkeys
  refine ⟨_, l, s, by simp [LRU.new, hcn.ne], hrun, hkeys ▸ h.represents, ?_, ?_⟩
  · rw [← hkeys]
    exact h.nodup_keys
  · rw [← hkeys, List.length_map, h.length_eq]
    exact hcap ▸ h.size_le

/-- Three misses, a hit on `0`, a delete of `1`, a miss that fills the cache again and one that
    evicts `2`, the least recently used. -/
def capacityThreeCalls : List (Call Nat) :=
  [.access 0, .access 1, .access 2, .access 0, .delete 1, .access 3, .access 4]

/-- At capacity three, the delete of `1` frees the middle of the vector and the last node, `2`,
    moves into its slot; the cache then follows the recency list to its end. -/
theorem lru_refines_recency_list_capacity_three :
    1 ≤ 3 ∧ 3 < nullPos ∧
    ((LRU.new 3).bind fun l₀ => LRU.runCalls (capacityThreeCalls.take 5) l₀ fun _ => ⟨nullPos⟩).map
        (fun r => r.1.recent.map (·.cacheIndex)) = some [0, 2] ∧
    RecencyList.run 3 capacityThreeCalls [] =
      ([4, 3, 0], [.missInsert, .missInsert, .missInsert, .hit, .missInsert, .missReplaced [2] []]) ∧
    ∃ l₀ l s, LRU.new 3 = some l₀ ∧
      LRU.runCalls capacityThreeCalls l₀ (fun _ => ⟨nullPos⟩) =
        some (l, s, (RecencyList.run 3 capacityThreeCalls []).2) ∧
      Represents l s (RecencyList.run 3 capacityThreeCalls []).1 ∧
      (RecencyList.run 3 capacityThreeCalls []).1.Nodup ∧
      (RecencyList.run 3 capacityThreeCalls []).1.length ≤ 3 :=
  ⟨by decide, by decide, by decide +kernel, by decide,
    lru_refines_recency_list (by decide) (by decide) _⟩

end Mazze.Storage.Cache
