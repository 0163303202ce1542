import Mathlib
import Mazze.Lib.AssocList
import Mazze.Treap.Refinement
import Mazze.Treap.Sums

/-!
# A shared-key `TreapMap` refines its ordered map

`tests.rs` runs a `TreapMap` beside a `BTreeMap` and compares the two after every `insert`,
`remove` and `get`. Over a shared-key config the treap orders its nodes by key alone
(`compares_sharedKeyConfig`), so the ordered map it stands for is its in-order entries
(`TreapMap.model`). Each operation acts on that list as the `OrdMap` operation of the same
name (`TreapMap.insert_model`, `TreapMap.remove_model`, `TreapMap.update_model`), `get` reads
its lookup (`TreapMap.get_model`), and every run keeps the list sorted and the sums right
(`treapMap_refines_ordMap`). The count the ext map keeps is another matter: a key change
counts a node twice (`counter_counts_moved_key_twice`).
-/

set_option autoImplicit false

namespace Mazze.Treap

variable {K V W : Type}

/-! ## The ordered map -/

namespace OrdMap

variable [LinearOrder K]

/-- Entries in ascending key order, so each key once. -/
def Sorted (m : OrdMap K W V) : Prop := m.Pairwise fun a b => a.1 < b.1

/-- The entries of keys below `k`. -/
def before (m : OrdMap K W V) (k : K) : OrdMap K W V := m.filter fun e => e.1 < k

/-- The entries of keys above `k`. -/
def after (m : OrdMap K W V) (k : K) : OrdMap K W V := m.filter fun e => k < e.1

theorem Sorted.nodup_keys {m : OrdMap K W V} (hs : m.Sorted) : (m.map Prod.fst).Nodup :=
  List.pairwise_map.mpr (hs.imp fun h => h.ne)

@[simp] theorem before_nil (k : K) : before ([] : OrdMap K W V) k = [] := rfl

@[simp] theorem after_nil (k : K) : after ([] : OrdMap K W V) k = [] := rfl

theorem before_cons (e : K × W × V) (m : OrdMap K W V) (k : K) :
    before (e :: m) k = if e.1 < k then e :: before m k else before m k := by
  simp only [before, List.filter_cons, decide_eq_true_eq]

theorem after_cons (e : K × W × V) (m : OrdMap K W V) (k : K) :
    after (e :: m) k = if k < e.1 then e :: after m k else after m k := by
  simp only [after, List.filter_cons, decide_eq_true_eq]

/-- Below the first key of a sorted map nothing is before `k`, and everything is after. -/
theorem before_after_of_le {e : K × W × V} {m : OrdMap K W V} (hs : Sorted (e :: m)) {k : K}
    (hk : k ≤ e.1) : before m k = [] ∧ after m k = m := by
  have hlt : ∀ x ∈ m, e.1 < x.1 := (List.pairwise_cons.mp hs).1
  refine ⟨List.filter_eq_nil_iff.mpr fun x hx => ?_, List.filter_eq_self.mpr fun x hx => ?_⟩
  · simpa using hk.trans (hlt x hx).le
  · simpa using hk.trans_lt (hlt x hx)

/-- `insert` on a sorted map puts the entry between the keys below and above it. -/
theorem insert_eq {m : OrdMap K W V} (hs : m.Sorted) (k : K) (w : W) (v : V) :
    m.insert k w v = m.before k ++ (k, w, v) :: m.after k := by
  induction m with
  | nil => rfl
  | cons e m ih =>
    obtain ⟨k', x⟩ := e
    rcases lt_trichotomy k k' with h | rfl | h
    · -- the new key comes first
      obtain ⟨hb, ha⟩ := before_after_of_le hs h.le
      simp [OrdMap.insert, h, before_cons, after_cons, hb, ha, not_lt_of_gt h]
    · -- the key is the first entry's, which is overwritten
      obtain ⟨hb, ha⟩ := before_after_of_le hs (le_refl k)
      simp [OrdMap.insert, before_cons, after_cons, hb, ha]
    · -- the first entry stays in front
      rw [OrdMap.insert, if_neg (not_lt_of_gt h), if_neg (ne_of_gt h), ih (List.pairwise_cons.mp hs).2,
        before_cons, after_cons, if_pos h, if_neg (not_lt_of_gt h), List.cons_append]

theorem erase_cons (e : K × W × V) (m : OrdMap K W V) (k : K) :
    erase (e :: m) k = if e.1 = k then erase m k else e :: erase m k := by
  by_cases h : e.1 = k <;> simp [erase, h]

/-- `erase` on a sorted map keeps the keys below and above. -/
theorem erase_eq {m : OrdMap K W V} (hs : m.Sorted) (k : K) :
    m.erase k = m.before k ++ m.after k := by
  induction m with
  | nil => rfl
  | cons e m ih =>
    have ih' := ih (List.pairwise_cons.mp hs).2
    rw [erase_cons, before_cons, after_cons]
    rcases lt_trichotomy k e.1 with h | h | h
    · -- every key is above `k`: nothing goes
      obtain ⟨hb, ha⟩ := before_after_of_le hs h.le
      rw [if_neg (ne_of_gt h), if_neg (not_lt_of_gt h), if_pos h, ih', hb, ha, List.nil_append,
        List.nil_append]
    · -- the first entry is the key's
      obtain ⟨hb, ha⟩ := before_after_of_le hs h.le
      rw [if_pos h.symm, if_neg (by simp [h]), if_neg (by simp [h]), ih', hb, ha]
    · rw [if_neg (ne_of_lt h), if_pos h, if_neg (not_lt_of_gt h), ih', List.cons_append]

/-- Entries of key `k` in the place of the slot of `k` keep a map sorted. -/
theorem sorted_before_append_after {m mid : OrdMap K W V} (hs : m.Sorted) (hmid : mid.Sorted)
    {k : K} (hk : ∀ e ∈ mid, e.1 = k) : (m.before k ++ mid ++ m.after k).Sorted := by
  have hb : (m.before k).Sorted := hs.sublist List.filter_sublist
  have ha : (m.after k).Sorted := hs.sublist List.filter_sublist
  have hlt : ∀ e ∈ m.before k, e.1 < k := fun e he => by simpa using (List.mem_filter.mp he).2
  have hgt : ∀ e ∈ m.after k, k < e.1 := fun e he => by simpa using (List.mem_filter.mp he).2
  unfold Sorted at hb ha hmid ⊢
  rw [List.pairwise_append, List.pairwise_append]
  refine ⟨⟨hb, hmid, fun a ha' b hb' => ?_⟩, ha, fun a ha' b hb' => ?_⟩
  · rw [hk b hb']
    exact hlt a ha'
  · rcases List.mem_append.mp ha' with ha' | ha'
    · exact (hlt a ha').trans (hgt b hb')
    · rw [hk a ha']
      exact hgt b hb'

theorem Sorted.insert {m : OrdMap K W V} (hs : m.Sorted) (k : K) (w : W) (v : V) :
    (m.insert k w v).Sorted := by
  rw [insert_eq hs, ← List.singleton_append, ← List.append_assoc]
  exact sorted_before_append_after hs (List.pairwise_singleton _ _) fun e he => by
    rw [List.mem_singleton.mp he]

theorem Sorted.erase {m : OrdMap K W V} (hs : m.Sorted) (k : K) : (m.erase k).Sorted := by
  rw [erase_eq hs, ← List.append_nil (m.before k)]
  exact sorted_before_append_after hs List.Pairwise.nil fun e he => by cases he

/-- Erasing the first key of a sorted map leaves the rest. -/
theorem erase_head {k : K} {x : W × V} {m : OrdMap K W V} (hs : Sorted ((k, x) :: m)) :
    erase ((k, x) :: m) k = m := by
  obtain ⟨hb, ha⟩ := before_after_of_le hs (le_refl k)
  rw [erase_eq hs, before_cons, after_cons, if_neg (lt_irrefl k), if_neg (lt_irrefl k), hb, ha,
    List.nil_append]

theorem before_erase (m : OrdMap K W V) (k : K) : (m.erase k).before k = m.before k := by
  simp only [before, erase, List.filter_filter]
  exact List.filter_congr fun e _ => by by_cases h : e.1 < k <;> simp [h, ne_of_lt]

theorem after_erase (m : OrdMap K W V) (k : K) : (m.erase k).after k = m.after k := by
  simp only [after, erase, List.filter_filter]
  exact List.filter_congr fun e _ => by by_cases h : k < e.1 <;> simp [h, ne_of_gt]

/-- Writing a key after erasing it is writing it in place. -/
theorem insert_erase {m : OrdMap K W V} (hs : m.Sorted) (k : K) (w : W) (v : V) :
    (m.erase k).insert k w v = m.before k ++ (k, w, v) :: m.after k := by
  rw [insert_eq (hs.erase k), before_erase, after_erase]

/-- `update` keeps a map sorted, whatever the closures do. -/
theorem Sorted.update {T Err : Type} {m : OrdMap K W V} (hs : m.Sorted) (k : K)
    (f : Entry K Unit V W → Entry K Unit V W × Except Err (ApplyOpOutcome T))
    (g : Except Err (Node K Unit V W × T)) : (m.update k f g).2.Sorted := by
  unfold OrdMap.update
  split
  · split
    · exact hs
    · split
      · exact hs.erase k
      · exact (hs.erase k).insert _ _ _
  · split
    · exact hs
    · exact hs.insert _ _ _

/-- An entry of `insert` is the new one or an old one. -/
theorem mem_insert {m : OrdMap K W V} {k : K} {w : W} {v : V} {e : K × W × V}
    (h : e ∈ m.insert k w v) : e = (k, w, v) ∨ e ∈ m := by
  induction m with
  | nil => simpa [insert] using h
  | cons e' m ih =>
    simp only [insert] at h
    split_ifs at h
    · simpa using h
    · rcases List.mem_cons.mp h with rfl | h
      · exact .inl rfl
      · exact .inr (List.mem_cons_of_mem _ h)
    · rcases List.mem_cons.mp h with rfl | h
      · exact .inr List.mem_cons_self
      · exact (ih h).imp_right (List.mem_cons_of_mem _)

theorem mem_erase {m : OrdMap K W V} {k : K} {e : K × W × V} (h : e ∈ m.erase k) : e ∈ m :=
  List.mem_of_mem_filter h

/-- **What `update` writes.** A property of every entry holds after `update` if it holds of
    the entry the closure makes from a present one and of the node `g` makes for a vacant key. -/
theorem forall_update {T Err : Type} {P : K × W × V → Prop} {m : OrdMap K W V}
    (hm : ∀ e ∈ m, P e) (k : K)
    (f : Entry K Unit V W → Entry K Unit V W × Except Err (ApplyOpOutcome T))
    (g : Except Err (Node K Unit V W × T))
    (hf : ∀ w v e o, m.lookup k = some (w, v) → f ⟨k, v, (), w⟩ = (e, .ok o) →
      P (e.key, e.weight, e.value))
    (hg : ∀ n out, g = .ok (n, out) → P (n.key, n.weight, n.value)) :
    ∀ e ∈ (m.update k f g).2, P e := by
  intro e he
  unfold OrdMap.update at he
  split at he
  · rename_i w v hl
    split at he
    · exact hm e he
    · rename_i e' o hfo
      split at he
      · exact hm e (mem_erase he)
      · rcases mem_insert he with rfl | he
        · exact hf w v e' o hl hfo
        · exact hm e (mem_erase he)
  · rcases g with err | ⟨n, out⟩
    · exact hm e he
    · rcases mem_insert he with rfl | he
      · exact hg n out rfl
      · exact hm e he

end OrdMap

/-! ## The treap's entries as an ordered map -/

/-- Key, weight and value of an entry. -/
def Entry.triple (e : Entry K Unit V W) : K × W × V := (e.key, e.weight, e.value)

/-- The ordered map a tree stands for: its entries in order. -/
def Tree.model (t : Tree K Unit V W) : OrdMap K W V := t.entries.map Entry.triple

/-- The ordered map a `TreapMap` stands for. -/
def TreapMap.model {E : Type} (m : TreapMap K Unit V W E) : OrdMap K W V := m.root.model

section Shared

variable [LinearOrder K]

/-- The rank a shared-key config compares: the key. -/
abbrev keyRank : Unit × K → K := Prod.snd

/-- A shared-key config compares keys and nothing else. -/
theorem compares_sharedKeyConfig [Add W] [Zero W] : Compares keyRank (sharedKeyConfig K V W) := by
  intro a b
  simp only [sharedKeyConfig, keyRank]
  cases compare a.2 b.2 <;> rfl

theorem sorted_entries_iff {t : Tree K Unit V W} : Sorted keyRank t.entries ↔ t.model.Sorted := by
  simp only [Sorted, OrdMap.Sorted, Tree.model, List.pairwise_map]
  rfl

theorem model_below (k : K) (t : Tree K Unit V W) :
    (below keyRank k t.entries).map Entry.triple = t.model.before k := by
  simp only [below, Tree.model, OrdMap.before, List.filter_map]
  rfl

theorem model_above (k : K) (t : Tree K Unit V W) :
    (above keyRank k t.entries).map Entry.triple = t.model.after k := by
  simp only [above, Tree.model, OrdMap.after, List.filter_map]
  rfl

/-- `Node::get` on a sorted tree: the value of the node of the key. -/
theorem Tree.get_eq_findRank [Add W] [Zero W] (k : K) {t : Tree K Unit V W} (hs : t.model.Sorted) :
    Tree.get (sharedKeyConfig K V W) () k t = (t.findRank keyRank k).map fun n => n.value := by
  induction t with
  | nil => rfl
  | node n l r ihl ihr =>
    have hs' := sorted_entries_iff.mpr hs
    obtain ⟨hl, hr, -, -, -⟩ := sorted_node.mp hs'
    have hdir : (sharedKeyConfig K V W).nextNodeDir ((), k) n.treapKey =
        dirOfOrdering (compare k n.key) := compares_sharedKeyConfig ((), k) n.treapKey
    rcases lt_trichotomy k n.key with h | h | h
    · rw [Tree.get, hdir, compare_lt_iff_lt.mpr h, (walk_left hs' h).2.2]
      exact ihl (sorted_entries_iff.mp hl)
    · rw [Tree.get, hdir, compare_eq_iff_eq.mpr h, (walk_hit hs' h.symm).2.2]
      rfl
    · rw [Tree.get, hdir, compare_gt_iff_gt.mpr h, (walk_right hs' h).2.2]
      exact ihr (sorted_entries_iff.mp hr)

/-- `update_inner` on a sorted tree, read on the ordered map: the keys below and above the
    updater's key stay, and in between is what it made of the slot. -/
theorem updateInner_model [Add W] [Zero W] {σ Ret DeleteRet : Type}
    (u : TreapNodeUpdate K Unit V W σ Ret DeleteRet)
    (hhit : ∀ st n, (u.updateHit st n).1.isInsert = false) (st : σ) {t : Tree K Unit V W}
    (hs : t.model.Sorted) :
    ∃ mid, SlotOutcome u st (t.findRank keyRank u.treapKey.2)
        (updateInner (sharedKeyConfig K V W) u st t).1.1 mid
        (updateInner (sharedKeyConfig K V W) u st t).2.2 ∧
      (updateInner (sharedKeyConfig K V W) u st t).2.1.model =
        t.model.before u.treapKey.2 ++ mid.map Entry.triple ++ t.model.after u.treapKey.2 := by
  obtain ⟨mid, hout, hentries⟩ := updateInner_spec (sharedKeyConfig K V W) u
    compares_sharedKeyConfig hhit st t (sorted_entries_iff.mpr hs)
  refine ⟨mid, hout, ?_⟩
  rw [Tree.model, hentries, List.map_append, List.map_append, model_below, model_above]

/-- The node a sorted tree finds for a key has that key. -/
theorem key_of_findRank {t : Tree K Unit V W} {k : K} {n : Node K Unit V W}
    (h : t.findRank keyRank k = some n) : n.key = k := by
  unfold Tree.findRank at h
  have hp := List.find?_some h
  exact of_decide_eq_true hp

/-- Without a node of the key, a sorted tree's map is the keys below and above it. -/
theorem model_split_none {t : Tree K Unit V W} (hs : t.model.Sorted) {k : K}
    (h : t.findRank keyRank k = none) : t.model = t.model.before k ++ t.model.after k := by
  have hsplit := congrArg (List.map Entry.triple) (entries_split k (sorted_entries_iff.mpr hs))
  rw [List.map_append, List.map_append, model_below, model_above, h] at hsplit
  change t.model = _ at hsplit
  simpa using hsplit

/-- With a node of the key, it stands between the keys below and above. -/
theorem model_split_some {t : Tree K Unit V W} (hs : t.model.Sorted) {k : K} {n : Node K Unit V W}
    (h : t.findRank keyRank k = some n) :
    t.model = t.model.before k ++ n.toEntry.triple :: t.model.after k := by
  have hsplit := congrArg (List.map Entry.triple) (entries_split k (sorted_entries_iff.mpr hs))
  rw [List.map_append, List.map_append, model_below, model_above, h] at hsplit
  change t.model = _ at hsplit
  simpa using hsplit

/-- A sorted tree's lookup is the node of the key. -/
theorem lookup_model {t : Tree K Unit V W} (hs : t.model.Sorted) (k : K) :
    t.model.lookup k = (t.findRank keyRank k).map fun n => (n.weight, n.value) := by
  cases hfind : t.findRank keyRank k with
  | none =>
    -- below and above the key, no entry has it
    refine AssocList.lookup_eq_none_iff_not_mem_keys.mpr fun hk => ?_
    rw [model_split_none hs hfind] at hk
    simp only [List.map_append, List.mem_append, List.mem_map] at hk
    rcases hk with ⟨e, he, rfl⟩ | ⟨e, he, rfl⟩
    · simpa [OrdMap.before] using (List.mem_filter.mp he).2
    · simpa [OrdMap.after] using (List.mem_filter.mp he).2
  | some n =>
    refine AssocList.lookup_of_mem hs.nodup_keys ?_
    rw [model_split_some hs hfind, ← key_of_findRank hfind]
    simp [Entry.triple]

end Shared

/-! ## The map's operations on the ordered map -/

section Ops

variable [LinearOrder K] [Add W] [Zero W] [DecidableEq W]

/-- What `InsertOp` makes of the slot of its node's key: the node at a vacant slot, and the
    slot's node with the new value and weight at a hit. -/
theorem insertOp_outcome {node : Node K Unit V W} {st : Counter} {found : Option (Node K Unit V W)}
    {ret : Option V} {mid : List (Entry K Unit V W)} {st' : Counter}
    (h : SlotOutcome (InsertOp (sharedKeyConfig K V W) node) st found ret mid st') :
    (found = none ∧ ret = none ∧ mid = [node.toEntry]) ∨
      ∃ n, found = some n ∧ ret = some n.value ∧
        mid = [{ n.toEntry with value := node.value, weight := node.weight }] := by
  cases h with
  | vacantInsert hv =>
    simp only [InsertOp, Prod.mk.injEq, OpResult.insertOnVacant.injEq] at hv
    obtain ⟨⟨rfl, rfl⟩, -⟩ := hv
    exact .inl ⟨rfl, rfl, rfl⟩
  | vacantUpdated hv => simp [InsertOp] at hv
  | vacantNoop hv => simp [InsertOp] at hv
  | vacantDelete hv => simp [InsertOp] at hv
  | @hitUpdated n uw ret n' st' hv =>
    simp only [InsertOp, Prod.mk.injEq, OpResult.updated.injEq] at hv
    obtain ⟨⟨-, rfl⟩, rfl, -⟩ := hv
    exact .inr ⟨n, rfl, rfl, rfl⟩
  | hitNoop hv => simp [InsertOp] at hv
  | hitDelete d hv => simp [InsertOp] at hv

/-- **`insert` on the ordered map**: it returns the key's old value and writes the entry. -/
theorem TreapMap.insert_model {m : TreapMap K Unit V W Counter} (hs : m.model.Sorted) (k : K)
    (v : V) (w : W) :
    (m.insert (sharedKeyConfig K V W) k v w).1 = (m.model.lookup k).map Prod.snd ∧
      (m.insert (sharedKeyConfig K V W) k v w).2.model = m.model.insert k w v := by
  simp only [TreapMap.model] at hs ⊢
  obtain ⟨mid, hout, hmodel⟩ := updateInner_model
    (InsertOp (sharedKeyConfig K V W) (Node.new k v () w m.rng.head)) (fun _ _ => rfl) m.extMap hs
  change SlotOutcome _ _ (Tree.findRank keyRank k m.root) (m.insert (sharedKeyConfig K V W) k v w).1
    mid _ at hout
  change (m.insert (sharedKeyConfig K V W) k v w).2.root.model =
    m.root.model.before k ++ _ ++ m.root.model.after k at hmodel
  rw [lookup_model hs, hmodel, OrdMap.insert_eq hs]
  rcases insertOp_outcome hout with ⟨hfound, hret, rfl⟩ | ⟨n, hfound, hret, rfl⟩
  · rw [hfound, hret]
    exact ⟨rfl, by simp [Entry.triple, Node.new]⟩
  · -- a hit keeps the node's key
    have hkey := key_of_findRank hfound
    rw [hfound, hret]
    exact ⟨rfl, by simp [Entry.triple, Node.new, hkey]⟩

omit [DecidableEq W] in
/-- What `RemoveOp` makes of the slot of its key: nothing, returning the value it held. -/
theorem removeOp_outcome {key : Unit × K} {st : Counter} {found : Option (Node K Unit V W)}
    {ret : Option V} {mid : List (Entry K Unit V W)} {st' : Counter}
    (h : SlotOutcome (RemoveOp (sharedKeyConfig K V W) key) st found ret mid st') :
    ret = found.map (fun n => n.value) ∧ mid = [] := by
  cases h with
  | vacantInsert hv => simp [RemoveOp] at hv
  | vacantUpdated hv => simp [RemoveOp] at hv
  | vacantNoop hv => simp [RemoveOp] at hv
  | vacantDelete hv => exact ⟨rfl, rfl⟩
  | hitUpdated hv => simp [RemoveOp] at hv
  | hitNoop hv => simp [RemoveOp] at hv
  | hitDelete d hv hd =>
    -- the deleted node carries the slot node's entry
    simp only [RemoveOp, Prod.mk.injEq] at hv
    obtain ⟨-, rfl, -⟩ := hv
    exact ⟨by simp [RemoveOp, congrArg Entry.value hd], rfl⟩

omit [DecidableEq W] in
/-- **`remove` on the ordered map**: it returns the key's value and erases the key. -/
theorem TreapMap.remove_model {m : TreapMap K Unit V W Counter} (hs : m.model.Sorted) (k : K) :
    (m.remove (sharedKeyConfig K V W) k).1 = (m.model.lookup k).map Prod.snd ∧
      (m.remove (sharedKeyConfig K V W) k).2.model = m.model.erase k := by
  simp only [TreapMap.model] at hs ⊢
  obtain ⟨mid, hout, hmodel⟩ := updateInner_model (RemoveOp (sharedKeyConfig K V W) ((), k))
    (fun _ _ => rfl) m.extMap hs
  change SlotOutcome _ _ (Tree.findRank keyRank k m.root) (m.remove (sharedKeyConfig K V W) k).1
    mid _ at hout
  change (m.remove (sharedKeyConfig K V W) k).2.root.model =
    m.root.model.before k ++ _ ++ m.root.model.after k at hmodel
  obtain ⟨hret, rfl⟩ := removeOp_outcome hout
  rw [lookup_model hs, hret, hmodel, OrdMap.erase_eq hs, Option.map_map]
  exact ⟨rfl, by simp⟩

section Apply

variable {T Err : Type} {k : K}
  {update : Entry K Unit V W → Entry K Unit V W × Except Err (ApplyOpOutcome T)}
  {insert : Stream' UInt64 → Except Err (Node K Unit V W × T) × Stream' UInt64}

omit [DecidableEq W] in
theorem applyOp_updateHit_panicked (st : ApplyState Counter) (n : Node K Unit V W) :
    ((ApplyOp (sharedKeyConfig K V W) ((), k) update insert).updateHit st n).2.2.panicked =
      st.panicked := by
  simp only [ApplyOp]
  split
  · rfl
  · split <;> rfl

omit [DecidableEq W] in
/-- What `ApplyOp` makes of a vacant slot: nothing when `insert` fails, and otherwise the node it
    made, whose key passes the `assert!`. -/
theorem applyOp_vacant_outcome (hins : InsertHonours k insert) {st st' : ApplyState Counter}
    {ret : Except Err (T × Option (Node K Unit V W))} {mid : List (Entry K Unit V W)}
    (h : SlotOutcome (ApplyOp (sharedKeyConfig K V W) ((), k) update insert) st none ret mid st') :
    st'.panicked = st.panicked ∧
      ((∃ err, (insert st.rng).1 = .error err ∧ ret = .error err ∧ mid = []) ∨
        ∃ node out, (insert st.rng).1 = .ok (node, out) ∧ node.key = k ∧ ret = .ok (out, none) ∧
          mid = [node.toEntry]) := by
  rcases hi : insert st.rng with ⟨res, rng⟩
  cases res with
  | error err =>
    have hres : ((ApplyOp (sharedKeyConfig K V W) ((), k) update insert).updateVacant st).1 =
        .noop (.error err) := by
      simp only [ApplyOp, hi]
    have hpan : ((ApplyOp (sharedKeyConfig K V W) ((), k) update insert).updateVacant st).2.panicked =
        st.panicked := by
      simp only [ApplyOp, hi]
    cases h with
    | vacantNoop hv =>
      rw [hv] at hres hpan
      exact ⟨hpan, .inl ⟨err, rfl, OpResult.noop.inj hres, rfl⟩⟩
    | vacantInsert hv => rw [hv] at hres; cases hres
    | vacantUpdated hv => rw [hv] at hres; cases hres
    | vacantDelete hv => rw [hv] at hres; cases hres
  | ok p =>
    obtain ⟨node, out⟩ := p
    have hkey : node.key = k := hins _ _ _ _ hi
    -- the node's key is the slot's, so the `assert!` passes
    have hdir : (sharedKeyConfig K V W).nextNodeDir ((), k) node.treapKey = none := by
      rw [compares_sharedKeyConfig]
      simp [keyRank, Node.treapKey, hkey, dirOfOrdering]
    have hres : ((ApplyOp (sharedKeyConfig K V W) ((), k) update insert).updateVacant st).1 =
        .insertOnVacant node (.ok (out, none)) := by
      simp only [ApplyOp, hi, hdir, Option.isNone_none, if_true]
    have hpan : ((ApplyOp (sharedKeyConfig K V W) ((), k) update insert).updateVacant st).2.panicked =
        st.panicked := by
      simp only [ApplyOp, hi, hdir, Option.isNone_none, if_true]
    cases h with
    | vacantInsert hv =>
      rw [hv] at hres hpan
      obtain ⟨rfl, rfl⟩ := OpResult.insertOnVacant.inj hres
      exact ⟨hpan, .inr ⟨_, out, rfl, hkey, rfl, rfl⟩⟩
    | vacantNoop hv => rw [hv] at hres; cases hres
    | vacantUpdated hv => rw [hv] at hres; cases hres
    | vacantDelete hv => rw [hv] at hres; cases hres

omit [DecidableEq W] in
/-- What `ApplyOp` makes of the slot's node: the entry the closure left when it fails or asks
    for an update, and nothing when it asks for a new key or a deletion, handing back the
    deleted node with the entry the closure left. -/
theorem applyOp_hit_outcome {st st' : ApplyState Counter} {n : Node K Unit V W}
    {ret : Except Err (T × Option (Node K Unit V W))} {mid : List (Entry K Unit V W)}
    (h : SlotOutcome (ApplyOp (sharedKeyConfig K V W) ((), k) update insert) st (some n) ret mid
      st') :
    st'.panicked = st.panicked ∧
      ((∃ err, (update n.toEntry).2 = .error err ∧ ret = .error err ∧
          mid = [(update n.toEntry).1]) ∨
        (∃ o, (update n.toEntry).2 = .ok o ∧ (o.updateKey || o.deleteItem) = true ∧ mid = [] ∧
          ∃ d : Node K Unit V W, d.toEntry = (update n.toEntry).1 ∧
            ret = .ok (o.out, if o.deleteItem then none else some d)) ∨
        (∃ o, (update n.toEntry).2 = .ok o ∧ (o.updateKey || o.deleteItem) = false ∧
          ret = .ok (o.out, none) ∧ mid = [(update n.toEntry).1])) := by
  have hnode : ((ApplyOp (sharedKeyConfig K V W) ((), k) update insert).updateHit st n).2.1 =
      { n with toEntry := (update n.toEntry).1 } := applyOp_updateHit_node st n
  have hpan : ((ApplyOp (sharedKeyConfig K V W) ((), k) update insert).updateHit st n).2.2.panicked =
      st.panicked := applyOp_updateHit_panicked st n
  rcases applyOp_updateHit_cases (sharedKeyConfig K V W) ((), k) update insert st n with
    ⟨err, he, hres⟩ | ⟨o, ho, hkd, hres⟩ | ⟨o, ho, hkd, hres⟩
  · -- the closure failed: a no-op on the node it left
    cases h with
    | hitNoop hv =>
      rw [hv] at hres hnode hpan
      cases hres
      cases hnode
      exact ⟨hpan, .inl ⟨err, he, rfl, rfl⟩⟩
    | hitUpdated hv => rw [hv] at hres; cases hres
    | hitDelete d hv hd => rw [hv] at hres; cases hres
  · -- a new key or a deletion: the node goes
    cases h with
    | hitDelete d hv hd =>
      rw [hv] at hres hnode hpan
      cases hres
      cases hnode
      exact ⟨hpan, .inr (.inl ⟨o, ho, hkd, rfl, d, hd, rfl⟩)⟩
    | hitUpdated hv => rw [hv] at hres; cases hres
    | hitNoop hv => rw [hv] at hres; cases hres
  · cases h with
    | hitUpdated hv =>
      rw [hv] at hres hnode hpan
      cases hres
      cases hnode
      exact ⟨hpan, .inr (.inr ⟨o, ho, hkd, rfl, rfl⟩)⟩
    | hitNoop hv => rw [hv] at hres; cases hres
    | hitDelete d hv hd => rw [hv] at hres; cases hres

/-- **`update` on the ordered map**: with closures that keep their contracts, it does not panic,
    and it returns and leaves what `OrdMap.update` does. -/
theorem TreapMap.update_model {m : TreapMap K Unit V W Counter} (hs : m.model.Sorted)
    (hupd : UpdateHonours update) (hins : InsertHonours k insert) :
    ∃ m', m.update (sharedKeyConfig K V W) k update insert =
        some ((m.model.update k update (insert m.rng).1).1, m') ∧
      m'.model = (m.model.update k update (insert m.rng).1).2 := by
  simp only [TreapMap.model] at hs ⊢
  have hhit : ∀ st n,
      ((ApplyOp (sharedKeyConfig K V W) ((), k) update insert).updateHit st n).1.isInsert = false := by
    intro st n
    rcases applyOp_updateHit_cases (sharedKeyConfig K V W) ((), k) update insert st n with
      ⟨_, _, h⟩ | ⟨_, _, _, h⟩ | ⟨_, _, _, h⟩ <;> rw [h] <;> rfl
  obtain ⟨mid, hout, hmodel⟩ := updateInner_model
    (ApplyOp (sharedKeyConfig K V W) ((), k) update insert) hhit ⟨m.extMap, m.rng, false⟩ hs
  change SlotOutcome _ _ (Tree.findRank keyRank k m.root) _ mid _ at hout
  change _ = m.root.model.before k ++ _ ++ m.root.model.after k at hmodel
  unfold TreapMap.update
  split
  · rename_i hsk
    cases hsk
  rename_i sortKey hsk
  cases sortKey
  rcases hrun : updateInner (sharedKeyConfig K V W) (ApplyOp (sharedKeyConfig K V W) ((), k) update insert)
    ⟨m.extMap, m.rng, false⟩ m.root with ⟨⟨res, uw, up⟩, root, st⟩
  rw [hrun] at hout hmodel
  simp only at hout hmodel ⊢
  cases hfound : Tree.findRank keyRank k m.root with
  | none =>
    -- a vacant slot: `insert` fills it or fails
    rw [hfound] at hout
    obtain ⟨hpan, hcase⟩ := applyOp_vacant_outcome hins hout
    have hl : m.root.model.lookup k = none := by rw [lookup_model hs, hfound]; rfl
    have hsplit := model_split_none hs hfound
    simp only at hpan
    simp only [hpan, Bool.false_eq_true, if_false, OrdMap.update, hl]
    rcases hcase with ⟨err, hg, rfl, rfl⟩ | ⟨node, out, hg, hkey, rfl, rfl⟩
    · refine ⟨_, by rw [hg], ?_⟩
      rw [hg, hmodel, List.map_nil, List.append_nil, ← hsplit]
    · refine ⟨_, by rw [hg], ?_⟩
      rw [hg, hmodel]
      simp only
      rw [OrdMap.insert_eq hs]
      simp [Entry.triple, hkey]
  | some n =>
    -- the slot's node: the closure decides
    rw [hfound] at hout
    obtain ⟨hpan, hcase⟩ := applyOp_hit_outcome hout
    have hkey := key_of_findRank hfound
    have hl : m.root.model.lookup k = some (n.weight, n.value) := by rw [lookup_model hs, hfound]; rfl
    have hentry : (⟨k, n.value, (), n.weight⟩ : Entry K Unit V W) = n.toEntry := by rw [← hkey]
    have hsplit := model_split_some hs hfound
    have hu := hupd n.toEntry
    simp only at hpan
    simp only [hpan, Bool.false_eq_true, if_false, OrdMap.update, hl, hentry]
    rcases hf : update n.toEntry with ⟨e, r⟩
    rw [hf] at hcase hu
    simp only at hcase hu ⊢
    rcases hcase with ⟨err, rfl, rfl, rfl⟩ | ⟨o, rfl, hkd, rfl, d, hd, rfl⟩ | ⟨o, rfl, hkd, rfl, rfl⟩
    · -- the closure failed and left the entry as it was
      refine ⟨_, rfl, ?_⟩
      rw [hmodel, hu]
      conv_rhs => rw [hsplit]
      simp
    · -- a new key or a deletion: the entry leaves its slot
      have herase : root.model = m.root.model.erase k := by
        rw [hmodel, OrdMap.erase_eq hs, List.map_nil, List.append_nil]
      cases hdel : o.deleteItem
      · -- a new key: the node goes in again through `insert`
        simp only [hdel, Bool.false_eq_true, if_false]
        refine ⟨_, rfl, ?_⟩
        obtain ⟨-, hmodel'⟩ := TreapMap.insert_model (m := ⟨root, st.extMap, st.rng⟩)
          (show root.model.Sorted by rw [herase]; exact hs.erase k) d.key d.value d.weight
        rw [TreapMap.model, TreapMap.model] at hmodel'
        rw [hmodel', ← hd]
        exact congrArg (fun x => OrdMap.insert x d.key d.weight d.value) herase
      · simp only [hdel, if_true]
        exact ⟨_, rfl, herase⟩
    · -- an update in place: the key stays
      obtain ⟨hsame, hdel⟩ := Bool.or_eq_false_iff.mp hkd
      have hek : e.key = k := by
        rw [← hkey]
        exact (hu.1 hsame).1
      simp only [hdel, Bool.false_eq_true, if_false]
      refine ⟨_, rfl, ?_⟩
      rw [hmodel, hek, OrdMap.insert_erase hs]
      simp [Entry.triple, hek]

end Apply

omit [DecidableEq W] in
/-- **`get` on the ordered map**: the value of the key's entry. -/
theorem TreapMap.get_model {m : TreapMap K Unit V W Counter} (hs : m.model.Sorted) (k : K) :
    m.get (sharedKeyConfig K V W) k = (m.model.lookup k).map Prod.snd := by
  change Tree.get _ () k m.root = _
  rw [Tree.get_eq_findRank k hs, TreapMap.model, lookup_model hs, Option.map_map]
  rfl

omit [DecidableEq W] in
/-- `remove` refreshes every node it moves, so the sums stay right. -/
theorem TreapMap.remove_sumsOk {m : TreapMap K Unit V W Counter}
    (hm : SumsOk (sharedKeyConfig K V W) m.root) (k : K) :
    SumsOk (sharedKeyConfig K V W) (m.remove (sharedKeyConfig K V W) k).2.root :=
  (updateInner_sumsOk (RemoveOp (sharedKeyConfig K V W) ((), k)) (fun _ _ h => by cases h)
    m.extMap m.root hm).1

end Ops

/-- A closure that keeps the contract of `update` asks for a refresh whenever it changes the
    weight. -/
theorem UpdateHonours.refreshesOnChange {S T Err : Type}
    {update : Entry K S V W → Entry K S V W × Except Err (ApplyOpOutcome T)}
    (h : UpdateHonours update) : RefreshesOnChange update := by
  intro e hne
  have he := h e
  rcases hf : update e with ⟨e', r⟩
  rw [hf] at he hne
  cases r with
  | error err => exact absurd (congrArg Entry.weight he) hne
  | ok o =>
    refine ⟨o, rfl, ?_⟩
    cases huw : o.updateWeight
    · exact absurd (he.2 huw) hne
    · rfl

section Runs

variable [LinearOrder K] [Add W] [Zero W] [DecidableEq W]

/-- Every map a run reaches has its entries in ascending key order and its sums right. -/
theorem Reachable.sorted_sumsOk {m : TreapMap K Unit V W Counter}
    (hm : Reachable (sharedKeyConfig K V W) m) :
    m.model.Sorted ∧ SumsOk (sharedKeyConfig K V W) m.root := by
  induction hm with
  | new rng => exact ⟨List.Pairwise.nil, trivial⟩
  | insert key value weight _ ih =>
    refine ⟨?_, (TreapMap.insert_treeOk (Q := fun _ => True) ⟨ih.2, fun _ _ => trivial⟩ key value
      trivial).sums⟩
    rw [(TreapMap.insert_model ih.1 key value weight).2]
    exact ih.1.insert key weight value
  | remove key _ ih =>
    refine ⟨?_, TreapMap.remove_sumsOk ih.2 key⟩
    rw [(TreapMap.remove_model ih.1 key).2]
    exact ih.1.erase key
  | update key update insert r _ hupd hins h ih =>
    obtain ⟨m', hm', hmodel⟩ := TreapMap.update_model ih.1 hupd hins
    obtain ⟨-, rfl⟩ := Prod.mk.inj (Option.some.inj (h.symm.trans hm'))
    refine ⟨?_, (TreapMap.update_treeOk (Q := fun _ => True) ⟨ih.2, fun _ _ => trivial⟩
      (fun _ _ => trivial) hupd.refreshesOnChange (fun _ _ _ _ _ => trivial) h).sums⟩
    rw [hmodel]
    exact ih.1.update key update _

/-- **A shared-key `TreapMap` refines its ordered map over every run.** Every map reachable from
    `new` by `insert`, `remove` and `update` (with closures that keep their contracts) has its
    entries in ascending key order and its sums right, `get` reads the ordered map's lookup,
    and `insert`, `remove` and `update` return and leave what the ordered map's operations of
    the same name do; `update` never panics. -/
theorem treapMap_refines_ordMap {m : TreapMap K Unit V W Counter}
    (hm : Reachable (sharedKeyConfig K V W) m) :
    m.model.Sorted ∧ SumsOk (sharedKeyConfig K V W) m.root ∧
      (∀ k, m.get (sharedKeyConfig K V W) k = (m.model.lookup k).map Prod.snd) ∧
      (∀ k v w, (m.insert (sharedKeyConfig K V W) k v w).1 = (m.model.lookup k).map Prod.snd ∧
        (m.insert (sharedKeyConfig K V W) k v w).2.model = m.model.insert k w v) ∧
      (∀ k, (m.remove (sharedKeyConfig K V W) k).1 = (m.model.lookup k).map Prod.snd ∧
        (m.remove (sharedKeyConfig K V W) k).2.model = m.model.erase k) ∧
      ∀ {T Err : Type} (k : K)
        (update : Entry K Unit V W → Entry K Unit V W × Except Err (ApplyOpOutcome T))
        (insert : Stream' UInt64 → Except Err (Node K Unit V W × T) × Stream' UInt64),
        UpdateHonours update → InsertHonours k insert →
        ∃ m', m.update (sharedKeyConfig K V W) k update insert =
            some ((m.model.update k update (insert m.rng).1).1, m') ∧
          m'.model = (m.model.update k update (insert m.rng).1).2 := by
  obtain ⟨hs, hsums⟩ := hm.sorted_sumsOk
  exact ⟨hs, hsums, TreapMap.get_model hs, TreapMap.insert_model hs, TreapMap.remove_model hs,
    fun _ _ _ hupd hins => TreapMap.update_model hs hupd hins⟩

end Runs

/-- An `update` closure that doubles the value and keeps the key and the weight. -/
def doubleValue (e : Entry Nat Unit Nat Nat) :
    Entry Nat Unit Nat Nat × Except Unit (ApplyOpOutcome Unit) :=
  ({ e with value := 2 * e.value }, .ok ⟨(), false, false, false⟩)

/-- A run that inserts keys `1`, `3` and `2`, removes `3` and doubles the value of `1` with
    `update` ends at a map that refines the ordered map `[(1, 1, 20), (2, 2, 20)]`. -/
theorem treapMap_refines_ordMap_run :
    ∃ m : TreapMap Nat Unit Nat Nat Counter, Reachable natMapConfig m ∧
      m.model = [(1, 1, 20), (2, 2, 20)] ∧
      m.model.Sorted ∧ SumsOk natMapConfig m.root ∧
      (∀ k, m.get natMapConfig k = (m.model.lookup k).map Prod.snd) ∧
      (∀ k v w, (m.insert natMapConfig k v w).1 = (m.model.lookup k).map Prod.snd ∧
        (m.insert natMapConfig k v w).2.model = m.model.insert k w v) ∧
      (∀ k, (m.remove natMapConfig k).1 = (m.model.lookup k).map Prod.snd ∧
        (m.remove natMapConfig k).2.model = m.model.erase k) ∧
      ∀ {T Err : Type} (k : Nat)
        (update : Entry Nat Unit Nat Nat → Entry Nat Unit Nat Nat × Except Err (ApplyOpOutcome T))
        (insert : Stream' UInt64 → Except Err (Node Nat Unit Nat Nat × T) × Stream' UInt64),
        UpdateHonours update → InsertHonours k insert →
        ∃ m', m.update natMapConfig k update insert =
            some ((m.model.update k update (insert m.rng).1).1, m') ∧
          m'.model = (m.model.update k update (insert m.rng).1).2 := by
  have hdouble : UpdateHonours doubleValue := by
    intro e
    simp [doubleValue]
  have hdecline : InsertHonours 1 declineInsert := by
    intro rng n out rng' h
    simp [declineInsert] at h
  have r₁ := (Reachable.new (C := natMapConfig) fun i => i.toUInt64).insert 1 10 1
  have r₂ := r₁.insert 3 30 3
  have r₃ := r₂.insert 2 20 2
  have r₄ := r₃.remove 3
  -- `update` returns, and the kernel reads off the map it leaves
  have r₅ := Reachable.update 1 doubleValue declineInsert _ r₄ hdouble hdecline
    (Option.eq_some_of_isSome (by decide +kernel))
  exact ⟨_, r₅, by decide +kernel, treapMap_refines_ordMap r₅⟩

end Mazze.Treap
