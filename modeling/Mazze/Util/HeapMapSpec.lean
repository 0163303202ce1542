import Mazze.Lib.Finmap
import Mazze.Util.HeapMap

/-!
# `HeapMap`: the representation invariant and the map it implements

`Inv` is the representation invariant: the vector is a max-heap on values, the map points every
node's key at the node, and keys no node has are not in the map. A `HeapMap` stands for the finite
map `toModel` of its nodes' entries.

The sifts are proved through the library's hole lemmas: the loop's state seen with `val`
written into the hole is a heap being sifted by exchanges, with a correct position map. What a
sift leaves (`Sifted`) is the same nodes, in heap order, with every key pointed at its node, and
the entries of other keys as they were. Each operation is then one such sift from a start that
the operation's own writes make (`append_spec`, `update_spec`, `remove_spec`, `updateWith_spec`,
`pop_spec`), and on a map that keeps `Inv` it never panics and implements the `Finmap`
operation of the same name.
-/

set_option autoImplicit false

namespace Mazze.Util

/-- The entry a node stands for. -/
def Node.entry {K V : Type} (n : Node K V) : (_ : K) × V := ⟨n.key, n.value⟩

namespace HeapMap

open BinaryHeap

variable {K V : Type}

/-- The nodes' keys, in the vector's order. -/
def keys (h : HeapMap K V) : List K := h.data.map Node.key

/-- The nodes' entries, in the vector's order. -/
def entries (h : HeapMap K V) : List ((_ : K) × V) := h.data.map Node.entry

theorem keys_entries (h : HeapMap K V) : h.entries.keys = h.keys := by
  simp only [entries, keys, List.keys, List.map_map]
  rfl

theorem keys_perm {v w : HeapMap K V} (hp : w.data.Perm v.data) : w.keys.Perm v.keys :=
  hp.map _

/-- What `swap_remove` leaves is the old nodes but the removed one. -/
theorem perm_swapRemove_keys (h : HeapMap K V) {i : Nat} (hi : i < h.data.length) :
    (h.data[i].key :: (swapRemove h.data i hi).2.map Node.key).Perm h.keys :=
  (perm_swapRemove h.data i hi).map Node.key

/-! ## The representation invariant -/

section Invariant

variable [LinearOrder V]

/-- The representation invariant. -/
structure Inv (h : HeapMap K V) : Prop where
  heap : IsHeap Node.value h.data
  positions : Positions Node.key h.data h.mapping
  absent : ∀ k, k ∉ h.keys → h.mapping k = none

theorem Inv.nodup {h : HeapMap K V} (hinv : Inv h) : h.keys.Nodup :=
  hinv.positions.nodup

theorem Inv.nodupKeys {h : HeapMap K V} (hinv : Inv h) : h.entries.NodupKeys := by
  rw [List.NodupKeys, keys_entries]
  exact hinv.nodup

/-- An index the map holds is a node of that key. -/
theorem Inv.getElem_of_mapping {h : HeapMap K V} (hinv : Inv h) {k : K} {i : Nat}
    (hk : h.mapping k = some i) : ∃ hi : i < h.data.length, h.data[i].key = k := by
  have hmem : k ∈ h.keys := by
    by_contra hn
    rw [hinv.absent k hn] at hk
    cases hk
  obtain ⟨j, hj, rfl⟩ := List.getElem_of_mem hmem
  simp only [keys, List.getElem_map, List.length_map] at hk hj ⊢
  rw [hinv.positions j hj] at hk
  cases hk
  exact ⟨hj, rfl⟩

theorem Inv.mapping_eq_none_iff {h : HeapMap K V} (hinv : Inv h) {k : K} :
    h.mapping k = none ↔ k ∉ h.keys := by
  refine ⟨fun hk hmem => ?_, hinv.absent k⟩
  obtain ⟨j, hj, rfl⟩ := List.getElem_of_mem hmem
  simp only [keys, List.getElem_map, List.length_map] at hk hj
  rw [hinv.positions j hj] at hk
  cases hk

theorem inv_new : Inv (new : HeapMap K V) where
  heap j hj := absurd hj (by simp [new])
  positions j hj := absurd hj (by simp [new])
  absent _ _ := rfl

/-! ## What a sift leaves -/

/-- A sift from `v` left `w`: the same nodes in heap order, each key pointed at its node, and
    the entries of keys no node has as they were. -/
structure Sifted (v w : HeapMap K V) : Prop where
  perm : w.data.Perm v.data
  heap : IsHeap Node.value w.data
  positions : Positions Node.key w.data w.mapping
  frame : ∀ k, k ∉ v.keys → w.mapping k = v.mapping k

theorem sifted_self {v : HeapMap K V} (hheap : IsHeap Node.value v.data)
    (hp : Positions Node.key v.data v.mapping) : Sifted v v :=
  ⟨List.Perm.refl _, hheap, hp, fun _ _ => rfl⟩

/-- A sift that went on from `v'`, one step after `v`, went on from `v`. -/
theorem Sifted.of_step {v v' w : HeapMap K V} (hw : Sifted v' w) (hperm : v'.data.Perm v.data)
    (hframe : ∀ k, k ∉ v.keys → v'.mapping k = v.mapping k) : Sifted v w where
  perm := hw.perm.trans hperm
  heap := hw.heap
  positions := hw.positions
  frame k hk := by
    rw [hw.frame k fun h => hk ((keys_perm hperm).subset h), hframe k hk]

/-- A sift from a start with no entries for absent keys leaves the invariant. -/
theorem Sifted.inv {v w : HeapMap K V} (hw : Sifted v w)
    (habs : ∀ k, k ∉ v.keys → v.mapping k = none) : Inv w where
  heap := hw.heap
  positions := hw.positions
  absent k hk := by
    have hkv : k ∉ v.keys := fun h => hk ((keys_perm hw.perm).symm.subset h)
    rw [hw.frame k hkv, habs k hkv]

/-- `sift_down` descends to one of the hole's two children. -/
theorem greaterChild_cases (data : List (Node K V)) (pos : Nat)
    (hc : pos * 2 + 1 < data.length) :
    (greaterChild data (pos * 2 + 1) hc : Nat) = pos * 2 + 1 ∨
      (greaterChild data (pos * 2 + 1) hc : Nat) = pos * 2 + 2 := by
  unfold greaterChild
  split_ifs <;> simp

/-- `sift_down` compares with the greatest child. -/
theorem greaterChild_max (data : List (Node K V)) (pos : Nat) (hc : pos * 2 + 1 < data.length)
    (j : Nat) (hj : j < data.length) (hj0 : 0 < j) (hjp : (j - 1) / 2 = pos) :
    data[j].value ≤ data[greaterChild data (pos * 2 + 1) hc].value := by
  have hj' : j = pos * 2 + 1 ∨ j = pos * 2 + 2 := by omega
  unfold greaterChild
  split_ifs with hr hgt
  · rcases hj' with rfl | rfl
    · exact le_of_lt hgt
    · exact le_rfl
  · rcases hj' with rfl | rfl
    · exact le_rfl
    · exact not_lt.mp hgt
  · rcases hj' with rfl | rfl
    · exact le_rfl
    · omega

end Invariant

variable [DecidableEq K]

/-- The map a `HeapMap` stands for. -/
def toModel (h : HeapMap K V) : Finmap (fun _ : K => V) := h.entries.toFinmap

/-- Writing a node back where its key already points changes nothing. -/
theorem moveInto_getElem_self (h : HeapMap K V) {i : Nat} (hi : i < h.data.length)
    (hm : h.mapping h.data[i].key = some i) : h.moveInto i h.data[i] = h := by
  cases h
  simp only [moveInto, List.set_getElem_self, HeapMap.mk.injEq, true_and]
  exact Function.update_eq_self_iff.mpr hm.symm

theorem toModel_eq_empty_iff {h : HeapMap K V} : h.toModel = ∅ ↔ h.data = [] := by
  refine ⟨fun he => ?_, fun he => by rw [toModel, entries, he, List.map_nil, Finmap.toFinmap_nil]⟩
  cases hd : h.data with
  | nil => rfl
  | cons n rest =>
    have : n.key ∈ h.toModel := by
      rw [toModel, Finmap.mem_list_toFinmap]
      exact ⟨n.value, List.mem_map.mpr ⟨n, by simp [hd], rfl⟩⟩
    rw [he] at this
    exact (Finmap.notMem_empty this).elim

variable [LinearOrder V]

theorem Sifted.toModel {v w : HeapMap K V} (hw : Sifted v w) : w.toModel = v.toModel := by
  have hnd : w.entries.NodupKeys := by
    rw [List.NodupKeys, keys_entries]
    exact hw.positions.nodup
  exact Finmap.toFinmap_perm hnd (hw.perm.map _)

/-! ## The sift loops -/

/-- The sift-up loop, from a hole at `pos` with `val` standing in it. The induction follows the
    loop; each turn is the library's hole step. -/
theorem siftUpLoop_sifted (val : Node K V) (h : HeapMap K V) (pos : Nat)
    (hpos : pos < h.data.length) (hup : UpInv Node.value (h.moveInto pos val).data pos)
    (hp : Positions Node.key (h.moveInto pos val).data (h.moveInto pos val).mapping) :
    Sifted (h.moveInto pos val)
      ((siftUpLoop val h pos hpos).1.moveInto (siftUpLoop val h pos hpos).2 val) := by
  fun_induction siftUpLoop val h pos hpos with
  | case1 h pos hpos hp0 hge =>
    -- `val` does not outrank the hole's parent
    refine sifted_self (hup.exit (by simpa using hpos) fun _ => ?_) hp
    simp only [moveInto_data, List.getElem_set_self]
    rw [List.getElem_set_ne (by omega)]
    exact hge
  | case2 h pos hpos hp0 hlt ih =>
    have hne : pos ≠ (pos - 1) / 2 := by omega
    refine (ih ?_ ?_).of_step ?_ ?_
    · exact hup.hole hpos hp0 (lt_of_not_ge hlt)
    · exact hp.hole hpos (by omega) hne
    · exact perm_set_set h.data hpos (by omega) hne val
    · intro k hk
      exact update_hole_of_not_mem hpos (by omega) hne hk
  | case3 h pos hpos hp0 =>
    -- the hole reached the root
    exact sifted_self (hup.exit (by simpa using hpos) fun h0 => absurd h0 hp0) hp

/-- The sift-down loop, from a hole at `pos` with `val` standing in it. -/
theorem siftDownLoop_sifted (val : Node K V) (h : HeapMap K V) (pos : Nat)
    (hpos : pos < h.data.length) (hdown : DownInv Node.value (h.moveInto pos val).data pos)
    (hp : Positions Node.key (h.moveInto pos val).data (h.moveInto pos val).mapping) :
    Sifted (h.moveInto pos val)
      ((siftDownLoop val h pos).1.moveInto (siftDownLoop val h pos).2 val) := by
  fun_induction siftDownLoop val h pos with
  | case1 h pos hc child hge hstop =>
    -- `val` outranks the greater child, so every child
    refine sifted_self (hdown.exit fun j hj hj0 hjp => ?_) hp
    simp only [moveInto_data, List.length_set] at hj
    simp only [moveInto_data, List.getElem_set_self]
    rw [List.getElem_set_ne (by omega)]
    exact (greaterChild_max h.data pos hc j hj hj0 hjp).trans hstop
  | case2 h pos hc child hge hlt ih =>
    have hch := greaterChild_cases h.data pos hc
    have hne : pos ≠ child := by omega
    refine (ih (by simp) ?_ ?_).of_step ?_ ?_
    · exact hdown.hole hpos child.isLt (by omega) (by omega) (greaterChild_max h.data pos hc)
        (lt_of_not_ge hlt)
    · exact hp.hole hpos child.isLt hne
    · exact perm_set_set h.data hpos child.isLt hne val
    · intro k hk
      exact update_hole_of_not_mem hpos child.isLt hne hk
  | case3 h pos hc =>
    -- the hole has no child
    refine sifted_self (hdown.exit fun j hj hj0 hjp => ?_) hp
    simp only [moveInto_data, List.length_set] at hj
    omega

/-! ## The sifts and `resift` -/

/-- `sift_up` from `index`: the loop from the hole at `index`, with the node that was there. -/
theorem siftUp_sifted (h : HeapMap K V) (index : Nat) (hi : index < h.data.length)
    (hup : UpInv Node.value h.data index)
    (hp : Positions Node.key h.data (h.moveInto index h.data[index]).mapping) :
    Sifted (h.moveInto index h.data[index]) (h.siftUp index hi) := by
  have hset : (h.moveInto index h.data[index]).data = h.data := by simp
  exact siftUpLoop_sifted h.data[index] h index hi (by rw [hset]; exact hup)
    (by rw [hset]; exact hp)

/-- `sift_down` from `index`. -/
theorem siftDown_sifted (h : HeapMap K V) (index : Nat) (hi : index < h.data.length)
    (hdown : DownInv Node.value h.data index)
    (hp : Positions Node.key h.data (h.moveInto index h.data[index]).mapping) :
    Sifted (h.moveInto index h.data[index]) (h.siftDown index hi) := by
  have hset : (h.moveInto index h.data[index]).data = h.data := by simp
  exact siftDownLoop_sifted h.data[index] h index hi (by rw [hset]; exact hdown)
    (by rw [hset]; exact hp)

/-- `resift` at a node whose rank went from `origin` to its value: it sinks, rises or stays,
    and each way leaves a heap. -/
theorem resift_sifted (h : HeapMap K V) (index : Nat) (hi : index < h.data.length) (origin : V)
    (hdown : h.data[index].value < origin → DownInv Node.value h.data index)
    (hup : origin < h.data[index].value → UpInv Node.value h.data index)
    (heq : h.data[index].value = origin → IsHeap Node.value h.data)
    (hp : Positions Node.key h.data h.mapping) :
    Sifted h (h.resift index hi origin) := by
  have hself := moveInto_getElem_self h hi (hp index hi)
  have hp' : Positions Node.key h.data (h.moveInto index h.data[index]).mapping := by
    rw [hself]
    exact hp
  unfold resift
  split
  next hcmp =>
    have := siftDown_sifted h index hi (hdown (compare_lt_iff_lt.mp hcmp)) hp'
    rwa [hself] at this
  next hcmp =>
    have := siftUp_sifted h index hi (hup (compare_gt_iff_gt.mp hcmp)) hp'
    rwa [hself] at this
  next hcmp =>
    exact sifted_self (heq (compare_eq_iff_eq.mp hcmp)) hp

/-! ## Reading the map -/

/-- A node's key looks up the node's value. -/
theorem Inv.lookup_getElem {h : HeapMap K V} (hinv : Inv h) {i : Nat} (hi : i < h.data.length) :
    h.toModel.lookup h.data[i].key = some h.data[i].value := by
  rw [toModel, Finmap.dlookup_list_toFinmap]
  exact List.mem_dlookup hinv.nodupKeys (List.mem_map.mpr ⟨_, List.getElem_mem hi, rfl⟩)

/-- A key the map does not hold looks up nothing. -/
theorem Inv.lookup_eq_none {h : HeapMap K V} (hinv : Inv h) {k : K} (hk : h.mapping k = none) :
    h.toModel.lookup k = none := by
  rw [toModel, Finmap.dlookup_list_toFinmap, List.dlookup_eq_none, keys_entries]
  exact hinv.mapping_eq_none_iff.mp hk

/-- `get` is the lookup of the model. -/
theorem Inv.get_eq {h : HeapMap K V} (hinv : Inv h) (k : K) : h.get k = h.toModel.lookup k := by
  unfold get
  split
  next hk => exact (hinv.lookup_eq_none hk).symm
  next i hk =>
    obtain ⟨hi, rfl⟩ := hinv.getElem_of_mapping hk
    rw [hinv.lookup_getElem hi, List.getElem?_eq_getElem hi, Option.map_some]

/-- `len` is the number of keys of the model. -/
theorem Inv.len_eq {h : HeapMap K V} (hinv : Inv h) : h.len = h.toModel.keys.card := by
  rw [toModel, Finmap.card_keys_toFinmap hinv.nodupKeys, entries, List.length_map, len]

/-! ## Writing a node under its own key: `update` and `update_with` -/

/-- A node rewritten under its own key and re-ranked: the invariant holds again, and the model
    maps the key to the new value. -/
theorem Inv.resift_set {h : HeapMap K V} (hinv : Inv h) {index : Nat} (hi : index < h.data.length)
    (n : Node K V) (hn : n.key = h.data[index].key)
    (hi' : index < (HeapMap.mk (h.data.set index n) h.mapping).data.length) :
    Inv ((HeapMap.mk (h.data.set index n) h.mapping).resift index hi' h.data[index].value) ∧
      ((HeapMap.mk (h.data.set index n) h.mapping).resift index hi' h.data[index].value).toModel =
        h.toModel.insert n.key n.value := by
  have hget : (h.data.set index n)[index] = n := List.getElem_set_self _
  have hs : Sifted (HeapMap.mk (h.data.set index n) h.mapping)
      ((HeapMap.mk (h.data.set index n) h.mapping).resift index hi' h.data[index].value) := by
    refine resift_sifted _ index hi' _ (fun hlt => ?_) (fun hlt => ?_) (fun heq => ?_)
      (hinv.positions.set hi hn)
    · exact hinv.heap.downInv_set hi (le_of_lt (by simpa [hget] using hlt))
    · exact hinv.heap.upInv_set hi (le_of_lt (by simpa [hget] using hlt))
    · exact hinv.heap.set_of_eq hi (by simpa [hget] using heq)
  have hkeys : (HeapMap.mk (h.data.set index n) h.mapping).keys = h.keys := by
    have hi'' : index < (h.data.map Node.key).length := by simpa using hi
    have hget' : (h.data.map Node.key)[index] = h.data[index].key := List.getElem_map _
    rw [keys, List.map_set, hn, ← hget', List.set_getElem_self, keys]
  refine ⟨hs.inv fun k hk => hinv.absent k (hkeys ▸ hk), ?_⟩
  -- the entries are the old ones with the entry at `index` rewritten under its key
  have hie : index < h.entries.length := by simpa [entries] using hi
  have hfst : h.entries[index].1 = n.key := by simp [entries, Node.entry, hn]
  have hset : (HeapMap.mk (h.data.set index n) h.mapping).entries =
      h.entries.set index ⟨h.entries[index].1, n.value⟩ := by
    rw [hfst]
    simp only [entries, List.map_set]
    rfl
  rw [hs.toModel, toModel, hset, Finmap.toFinmap_set hinv.nodupKeys hie, hfst]
  rfl

/-- `update` on a key the map has: no panic, the old value back, the new one in the model. -/
theorem update_spec {h : HeapMap K V} (hinv : Inv h) {key : K} {index : Nat}
    (hk : h.mapping key = some index) (value : V) :
    ∃ h' v₀, h.update key value = some (h', v₀) ∧ h.toModel.lookup key = some v₀ ∧ Inv h' ∧
      h'.toModel = h.toModel.insert key value := by
  obtain ⟨hi, hkey⟩ := hinv.getElem_of_mapping hk
  obtain ⟨hinv', hmodel⟩ := hinv.resift_set hi ⟨key, value⟩ hkey.symm (by simpa using hi)
  refine ⟨_, h.data[index].value, ?_, ?_, hinv', hmodel⟩
  · simp only [update, hk, dif_pos hi]
  · rw [← hkey]
    exact hinv.lookup_getElem hi

/-- `update_with`: no panic; on a key the map has, its value rewritten in the model. -/
theorem updateWith_spec {h : HeapMap K V} (hinv : Inv h) (key : K) (updateFn : V → V) :
    ∃ h', h.updateWith key updateFn = some h' ∧ Inv h' ∧
      h'.toModel = (h.toModel.lookup key).elim h.toModel
        fun v => h.toModel.insert key (updateFn v) := by
  cases hk : h.mapping key with
  | none =>
    refine ⟨h, by simp only [updateWith, hk], hinv, ?_⟩
    rw [hinv.lookup_eq_none hk]
    rfl
  | some index =>
    obtain ⟨hi, hkey⟩ := hinv.getElem_of_mapping hk
    obtain ⟨hinv', hmodel⟩ := hinv.resift_set hi ⟨h.data[index].key, updateFn h.data[index].value⟩
      rfl (by simpa using hi)
    refine ⟨_, by simp only [updateWith, hk, dif_pos hi], hinv', ?_⟩
    rw [hmodel, ← hkey, hinv.lookup_getElem hi]
    rfl

/-! ## `append` and `insert` -/

/-- `append` of a key the map does not have. -/
theorem append_spec {h : HeapMap K V} (hinv : Inv h) {key : K} (hk : h.mapping key = none)
    (value : V) :
    Inv (h.append key value) ∧ (h.append key value).toModel = h.toModel.insert key value := by
  have hkeys : key ∉ h.keys := hinv.mapping_eq_none_iff.mp hk
  -- the start of the sift: the node pushed, its key pointed at the end
  have hstart : (HeapMap.mk (h.data ++ [⟨key, value⟩]) h.mapping).moveInto h.data.length
      (h.data ++ [⟨key, value⟩])[h.data.length] =
      ⟨h.data ++ [⟨key, value⟩], Function.update h.mapping key (some h.data.length)⟩ := by
    simp [moveInto]
  have hs := siftUp_sifted (HeapMap.mk (h.data ++ [⟨key, value⟩]) h.mapping) h.data.length
    (by simp) (hinv.heap.upInv_append _) (by rw [hstart]; exact hinv.positions.append hkeys)
  rw [hstart] at hs
  have happ : h.append key value =
      (HeapMap.mk (h.data ++ [⟨key, value⟩]) h.mapping).siftUp h.data.length (by simp) := rfl
  rw [happ]
  have hkeys' : (HeapMap.mk (h.data ++ [⟨key, value⟩])
      (Function.update h.mapping key (some h.data.length))).keys = h.keys ++ [key] := by
    simp [keys]
  refine ⟨hs.inv fun k hk' => ?_, ?_⟩
  · rw [hkeys', List.mem_append, not_or] at hk'
    dsimp only
    rw [Function.update_of_ne (by simpa using hk'.2), hinv.absent k hk'.1]
  · rw [hs.toModel, toModel, toModel, entries, entries, List.map_append]
    refine Finmap.toFinmap_append_singleton ?_
    have hk2 : (h.data.map Node.entry ++ [Node.entry ⟨key, value⟩]).keys = h.keys ++ [key] := by
      simp [List.keys, keys, Node.entry]
    rw [List.NodupKeys, hk2, List.nodup_append]
    refine ⟨hinv.nodup, List.nodup_singleton _, fun a ha b hb hab => ?_⟩
    rw [List.mem_singleton] at hb
    rw [hab, hb] at ha
    exact hkeys ha

/-- `insert`: no panic, the old value back exactly when the key was there, and the key mapped
    to the new value in the model. -/
theorem insert_spec {h : HeapMap K V} (hinv : Inv h) (key : K) (value : V) :
    ∃ h', h.insert key value = some (h', h.toModel.lookup key) ∧ Inv h' ∧
      h'.toModel = h.toModel.insert key value := by
  cases hk : h.mapping key with
  | none =>
    obtain ⟨hinv', hmodel⟩ := append_spec hinv hk value
    refine ⟨_, ?_, hinv', hmodel⟩
    simp only [insert, hk, Option.isSome_none, Bool.false_eq_true, if_false,
      hinv.lookup_eq_none hk]
  | some index =>
    obtain ⟨h', v₀, hu, hl, hinv', hmodel⟩ := update_spec hinv hk value
    refine ⟨h', ?_, hinv', hmodel⟩
    simp only [insert, hk, Option.isSome_some, if_true, hu, hl, Option.map_some]

/-! ## Taking a node out: `remove` and `pop` -/

/-- The end of a removal: after `swap_remove` at `i` and a sift from a start `v` on what is left,
    whose map agrees with the old one on every other key, the removed key dropped from the map
    gives the invariant back, and the model without that key. -/
theorem Inv.removal {h : HeapMap K V} (hinv : Inv h) {i : Nat} (hi : i < h.data.length)
    {v w f : HeapMap K V} (hv : v.data = (swapRemove h.data i hi).2)
    (hm : ∀ k, k ∉ v.keys → k ≠ h.data[i].key → v.mapping k = h.mapping k) (hw : Sifted v w)
    (hfd : f.data = w.data) (hfm : f.mapping = Function.update w.mapping h.data[i].key none) :
    Inv f ∧ f.toModel = h.toModel.erase h.data[i].key := by
  have hperm : (h.data[i].key :: v.keys).Perm h.keys := by
    rw [keys, hv]
    exact perm_swapRemove_keys h hi
  have hout : h.data[i].key ∉ w.keys := fun hk =>
    (List.nodup_cons.mp (hperm.nodup_iff.mpr hinv.nodup)).1 ((keys_perm hw.perm).subset hk)
  have hfkeys : f.keys = w.keys := by rw [keys, keys, hfd]
  refine ⟨⟨hfd ▸ hw.heap, hfd ▸ hfm ▸ hw.positions.update_of_not_mem hout none, fun k hk => ?_⟩, ?_⟩
  · rw [hfm]
    by_cases hki : k = h.data[i].key
    · rw [hki, Function.update_self]
    · have hkv : k ∉ v.keys := fun h' => hk (hfkeys ▸ (keys_perm hw.perm).symm.subset h')
      rw [Function.update_of_ne hki, hw.frame k hkv, hm k hkv hki]
      exact hinv.absent k fun h' => (List.mem_cons.mp (hperm.symm.subset h')).elim hki hkv
  · have hfw : f.toModel = w.toModel := by rw [toModel, toModel, entries, entries, hfd]
    rw [hfw, hw.toModel, toModel]
    refine Finmap.toFinmap_erase_of_perm (x := h.data[i].entry) hinv.nodupKeys ?_
    rw [entries, hv]
    exact (perm_swapRemove h.data i hi).map Node.entry

/-- `remove`'s end: a sift from the moved node's place, with the removed key already out of the
    map. -/
theorem Inv.removal_of_erased {h : HeapMap K V} (hinv : Inv h) {i : Nat} (hi : i < h.data.length)
    {v w : HeapMap K V} (hw : Sifted v w) (hv : v.data = (swapRemove h.data i hi).2)
    (hm : ∀ k, k ∉ v.keys → k ≠ h.data[i].key → v.mapping k = h.mapping k)
    (hkey : v.mapping h.data[i].key = none) :
    Inv w ∧ w.toModel = h.toModel.erase h.data[i].key := by
  have hout : h.data[i].key ∉ v.keys := by
    rw [keys, hv]
    exact (List.nodup_cons.mp ((perm_swapRemove_keys h hi).nodup_iff.mpr hinv.nodup)).1
  refine hinv.removal hi hv hm hw rfl ?_
  rw [eq_comm, Function.update_eq_self_iff, hw.frame _ hout, hkey]

/-- The start of `remove`'s sift: the moved node's key pointed at its new place, and the removed
    key out of the map. -/
theorem Inv.removeStart {h : HeapMap K V} (hinv : Inv h) {index : Nat}
    (hi : index < h.data.length) (hl : index < (swapRemove h.data index hi).2.length) :
    Positions Node.key (swapRemove h.data index hi).2
        (Function.update (Function.update h.mapping h.data[index].key none)
          (swapRemove h.data index hi).2[index].key (some index)) ∧
      ∀ k, k ∉ (swapRemove h.data index hi).2.map Node.key → k ≠ h.data[index].key →
        Function.update (Function.update h.mapping h.data[index].key none)
          (swapRemove h.data index hi).2[index].key (some index) k = h.mapping k := by
  have hne : h.data[index].key ≠ h.data[h.data.length - 1].key := fun heq => by
    have := hinv.positions.inj hi (by omega) heq
    simp at hl
    omega
  have hout : h.data[index].key ∉ (swapRemove h.data index hi).2.map Node.key :=
    (List.nodup_cons.mp ((perm_swapRemove_keys h hi).nodup_iff.mpr hinv.nodup)).1
  rw [getElem_swapRemove, Function.update_comm hne]
  refine ⟨(hinv.positions.swapRemove hi).update_of_not_mem hout none, fun k hk hki => ?_⟩
  have hkm : k ≠ h.data[h.data.length - 1].key := by
    rintro rfl
    refine hk (List.mem_map.mpr ⟨_, ?_, rfl⟩)
    rw [← getElem_swapRemove h.data index hi hl]
    exact List.getElem_mem hl
  rw [Function.update_of_ne hki, Function.update_of_ne hkm]

/-- `remove`: no panic, the removed value back exactly when the key was there, and the key gone
    from the model. -/
theorem remove_spec {h : HeapMap K V} (hinv : Inv h) (key : K) :
    ∃ h', h.remove key = some (h', h.toModel.lookup key) ∧ Inv h' ∧
      h'.toModel = h.toModel.erase key := by
  cases hk : h.mapping key with
  | none =>
    refine ⟨h, by simp only [remove, hk, hinv.lookup_eq_none hk], hinv, ?_⟩
    rw [Finmap.erase_of_lookup_eq_none (hinv.lookup_eq_none hk)]
  | some index =>
    obtain ⟨hi, rfl⟩ := hinv.getElem_of_mapping hk
    rw [hinv.lookup_getElem hi]
    have hout : h.data[index].key ∉ (swapRemove h.data index hi).2.map Node.key :=
      (List.nodup_cons.mp ((perm_swapRemove_keys h hi).nodup_iff.mpr hinv.nodup)).1
    simp only [remove, hk, dif_pos hi]
    split
    next hl =>
      -- the last node moved into `index`; it sinks, rises or stays by its value
      have hl' : index < h.data.length - 1 := by simpa using hl
      have hmoved := getElem_swapRemove h.data index hi hl
      obtain ⟨hpos, hm⟩ := hinv.removeStart hi hl
      have hkey : Function.update (Function.update h.mapping h.data[index].key none)
          (swapRemove h.data index hi).2[index].key (some index) h.data[index].key = none := by
        have hne : h.data[index].key ≠ (swapRemove h.data index hi).2[index].key := fun heq => by
          rw [heq] at hout
          exact hout (List.mem_map_of_mem (List.getElem_mem hl))
        rw [Function.update_of_ne hne, Function.update_self]
      have hv : ∀ m : K → Option Nat, (HeapMap.mk (swapRemove h.data index hi).2 m).moveInto index
          (swapRemove h.data index hi).2[index] =
          ⟨(swapRemove h.data index hi).2, Function.update m
            (swapRemove h.data index hi).2[index].key (some index)⟩ := fun m => by
        simp only [moveInto, List.set_getElem_self]
      split
      next hcmp =>
        have hlt := compare_lt_iff_lt.mp hcmp
        rw [hmoved] at hlt
        have hs := siftDown_sifted (HeapMap.mk (swapRemove h.data index hi).2
          (Function.update h.mapping h.data[index].key none)) index hl
          (hinv.heap.swapRemove_down hi hl' hlt.le) hpos
        rw [hv] at hs
        exact ⟨_, rfl, hinv.removal_of_erased hi hs rfl hm hkey⟩
      next hcmp =>
        have hgt := compare_gt_iff_gt.mp hcmp
        rw [hmoved] at hgt
        have hs := siftUp_sifted (HeapMap.mk (swapRemove h.data index hi).2
          (Function.update h.mapping h.data[index].key none)) index hl
          (hinv.heap.swapRemove_up hi hl' hgt.le) hpos
        rw [hv] at hs
        exact ⟨_, rfl, hinv.removal_of_erased hi hs rfl hm hkey⟩
      next hcmp =>
        have heq := compare_eq_iff_eq.mp hcmp
        rw [hmoved] at heq
        have hs := sifted_self (v := HeapMap.mk (swapRemove h.data index hi).2
          (Function.update (Function.update h.mapping h.data[index].key none)
            (swapRemove h.data index hi).2[index].key (some index)))
          (hinv.heap.swapRemove_of_eq hi hl' heq) hpos
        exact ⟨_, rfl, hinv.removal_of_erased hi hs rfl hm hkey⟩
    next hl =>
      -- the removed node was the last one
      have hlast := swapRemove_of_last h.data index hi (by simpa using hl)
      refine ⟨_, rfl, hinv.removal_of_erased hi (sifted_self ?_ ?_) rfl
        (fun k _ hki => Function.update_of_ne hki _ _) (Function.update_self _ _ _)⟩
      · rw [hlast]
        exact hinv.heap.dropLast
      · refine Positions.update_of_not_mem ?_ hout none
        rw [hlast]
        exact hinv.positions.dropLast

/-- The root's value bounds every value of the model. -/
theorem Inv.lookup_le_root {h : HeapMap K V} (hinv : Inv h) (h0 : 0 < h.data.length) {k : K}
    {v : V} (hk : h.toModel.lookup k = some v) : v ≤ h.data[0].value := by
  rw [toModel, Finmap.dlookup_list_toFinmap] at hk
  obtain ⟨n, hn, hentry⟩ := List.mem_map.mp (List.of_mem_dlookup hk)
  obtain ⟨j, hj, rfl⟩ := List.getElem_of_mem hn
  have hv : h.data[j].value = v := congrArg Sigma.snd hentry
  exact hv ▸ hinv.heap.le_root j hj

/-- `pop`: an entry of greatest value comes out, the model loses it, and the invariant holds
    after; it returns nothing exactly on an empty map. -/
theorem pop_spec {h : HeapMap K V} (hinv : Inv h) :
    Inv h.pop.1 ∧ (h.pop.2 = none ↔ h.toModel = ∅) ∧
      ∀ k v, h.pop.2 = some (k, v) →
        h.toModel.lookup k = some v ∧ (∀ k' v', h.toModel.lookup k' = some v' → v' ≤ v) ∧
        h.pop.1.toModel = h.toModel.erase k := by
  unfold pop
  split
  next he =>
    have hd : h.data = [] := by simpa [isEmpty] using he
    exact ⟨hinv, by simp [toModel_eq_empty_iff, hd], fun _ _ h' => by cases h'⟩
  next he =>
    have hi := length_pos_of_not_isEmpty he
    -- what is left after `swap_remove(0)`, sifted down from the root unless it is empty
    obtain ⟨v, w, hw, hv, hm, hw'⟩ : ∃ v w : HeapMap K V, Sifted v w ∧
        v.data = (swapRemove h.data 0 hi).2 ∧
        (∀ k, k ∉ v.keys → k ≠ h.data[0].key → v.mapping k = h.mapping k) ∧
        (if hr : 0 < (swapRemove h.data 0 hi).2.length then
          (HeapMap.mk (swapRemove h.data 0 hi).2 h.mapping).siftDown 0 hr
        else HeapMap.mk (swapRemove h.data 0 hi).2 h.mapping) = w := by
      split
      next hr =>
        have hpos : Positions Node.key (swapRemove h.data 0 hi).2
            (Function.update h.mapping (swapRemove h.data 0 hi).2[0].key (some 0)) := by
          rw [getElem_swapRemove]
          exact hinv.positions.swapRemove hi
        have hdown := hinv.heap.swapRemove_down hi (by simpa using hr) (hinv.heap.le_root _ _)
        refine ⟨_, _, siftDown_sifted _ 0 hr hdown hpos, by simp, fun k hk _ => ?_, rfl⟩
        have hkm : k ≠ (swapRemove h.data 0 hi).2[0].key := by
          rintro rfl
          exact hk (List.mem_map_of_mem (by simp))
        exact Function.update_of_ne hkm _ _
      next hr =>
        have hnil : ∀ j, ¬j < (swapRemove h.data 0 hi).2.length := fun j hj => hr (by omega)
        refine ⟨HeapMap.mk (swapRemove h.data 0 hi).2 h.mapping, _,
          sifted_self (fun j hj => absurd hj (hnil j)) (fun j hj => absurd hj (hnil j)), rfl,
          fun _ _ _ => rfl, rfl⟩
    dsimp only
    rw [hw']
    obtain ⟨hinv', hmodel⟩ := hinv.removal hi hv hm hw
      (f := ⟨w.data, Function.update w.mapping h.data[0].key none⟩) rfl rfl
    have hroot := hinv.lookup_getElem hi
    refine ⟨hinv', ?_, fun k v' hkv => ?_⟩
    · refine ⟨fun h' => (by cases h'), fun he' => ?_⟩
      rw [he', Finmap.lookup_empty] at hroot
      cases hroot
    · obtain ⟨rfl, rfl⟩ := Prod.mk.inj (Option.some.inj hkv)
      exact ⟨hroot, fun k' v' h' => hinv.lookup_le_root hi h', hmodel⟩

/-- `top`: an entry of greatest value, and nothing exactly on an empty map. -/
theorem top_spec {h : HeapMap K V} (hinv : Inv h) :
    (h.top = none ↔ h.toModel = ∅) ∧
      ∀ k v, h.top = some (k, v) →
        h.toModel.lookup k = some v ∧ ∀ k' v', h.toModel.lookup k' = some v' → v' ≤ v := by
  rw [toModel_eq_empty_iff]
  cases hd : h.data with
  | nil => simp [top, hd]
  | cons n rest =>
    have hi : 0 < h.data.length := by simp [hd]
    have hn : h.data[0] = n := by simp [hd]
    refine ⟨by simp [top, hd], fun k v htop => ?_⟩
    simp only [top, hd, List.getElem?_cons_zero, Option.map_some, Option.some.injEq,
      Prod.mk.injEq] at htop
    obtain ⟨rfl, rfl⟩ := htop
    rw [← hn]
    exact ⟨hinv.lookup_getElem hi, fun k' v' h' => hinv.lookup_le_root hi h'⟩

/-! ## Runs -/

/-- The maps a program builds from `new` (also what `clear` and `default` give) with `insert`,
    `remove`, `update_with` and `pop`, each of which returned. -/
inductive Reachable : HeapMap K V → Prop
  | new : Reachable HeapMap.new
  | insert {h : HeapMap K V} (key : K) (value : V) (r : HeapMap K V × Option V) :
      Reachable h → h.insert key value = some r → Reachable r.1
  | remove {h : HeapMap K V} (key : K) (r : HeapMap K V × Option V) :
      Reachable h → h.remove key = some r → Reachable r.1
  | updateWith {h : HeapMap K V} (key : K) (updateFn : V → V) (h' : HeapMap K V) :
      Reachable h → h.updateWith key updateFn = some h' → Reachable h'
  | pop {h : HeapMap K V} : Reachable h → Reachable h.pop.1

/-- Every operation keeps the invariant, so every reachable map has it. -/
theorem Reachable.inv {h : HeapMap K V} (hr : Reachable h) : Inv h := by
  induction hr with
  | new => exact inv_new
  | insert key value r _ hop ih =>
    obtain ⟨h', hins, hinv', _⟩ := insert_spec ih key value
    rw [hins, Option.some.injEq] at hop
    exact hop ▸ hinv'
  | remove key r _ hop ih =>
    obtain ⟨h', hrem, hinv', _⟩ := remove_spec ih key
    rw [hrem, Option.some.injEq] at hop
    exact hop ▸ hinv'
  | updateWith key updateFn h' _ hop ih =>
    obtain ⟨h'', hupd, hinv', _⟩ := updateWith_spec ih key updateFn
    rw [hupd, Option.some.injEq] at hop
    exact hop ▸ hinv'
  | pop _ ih => exact (pop_spec ih).1

end HeapMap

end Mazze.Util
