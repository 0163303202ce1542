import Mathlib
import Mazze.Treap.MapRefinement

/-!
# What `len()` counts

The ext map of a shared-key map is a `Counter`: `view_update(key, value, old_value)` counts one
more for a new value and one less for an old one, and `len()` reads the count. Each updater
tells it what it did to the slot of its key, so the count moves by the entries the slot gained
(`insertOp_counts`, `removeOp_counts`, `applyOp_counts`), and `insert`, `remove` and an
`update` whose closure keeps the key keep `len()` equal to the number of entries of the
ordered map (`TreapMap.insert_len`, `TreapMap.remove_len`, `TreapMap.update_len`).

A closure that changes the key is the exception: `ApplyOp` reports the node as changed, not
as gone, and its insertion again counts it once more (`counter_counts_moved_key_twice`).
-/

set_option autoImplicit false

namespace Mazze.Treap

variable {K V W : Type}

/-- `view_update` counts one more for a new value and one less for an old one. An old value
    without a new one is a node that goes, so the count it takes one from is positive. -/
theorem Counter.count_viewUpdate (c : Counter) (value oldValue : Option V)
    (h : oldValue.isSome → value.isSome ∨ 0 < c.count) :
    (c.viewUpdate value oldValue).count + oldValue.toList.length =
      c.count + value.toList.length := by
  cases value with
  | none =>
    cases oldValue with
    | none => rfl
    | some v =>
      have hpos : 0 < c.count := (h rfl).resolve_left Bool.false_ne_true
      simp only [Counter.viewUpdate, Option.isSome_none, Option.isSome_some, Bool.false_eq_true,
        if_false, if_true, Option.toList_some, Option.toList_none, List.length_singleton,
        List.length_nil]
      omega
  | some v =>
    cases oldValue <;> simp [Counter.viewUpdate]

/-- The closure of an `update` never asks to move its entry to another key. -/
def KeepsKeys {T Err : Type}
    (update : Entry K Unit V W → Entry K Unit V W × Except Err (ApplyOpOutcome T)) : Prop :=
  ∀ e o, (update e).2 = .ok o → o.updateKey = false

/-! ## What each updater does to the count -/

section Slot

variable [LinearOrder K] [Add W] [Zero W]

/-- `InsertOp` counts the node it puts in a vacant slot, and nothing for a hit. -/
theorem insertOp_counts [DecidableEq W] {node : Node K Unit V W} {st : Counter}
    {found : Option (Node K Unit V W)} {ret : Option V} {mid : List (Entry K Unit V W)}
    {st' : Counter} (h : SlotOutcome (InsertOp (sharedKeyConfig K V W) node) st found ret mid st') :
    st'.count + found.toList.length = st.count + mid.length := by
  cases h with
  | vacantInsert hv =>
    obtain ⟨-, rfl⟩ := Prod.mk.inj hv
    exact st.count_viewUpdate (some node.value) none (by simp)
  | @hitUpdated n uw ret n' st' hv =>
    simp only [InsertOp, Prod.mk.injEq] at hv
    obtain ⟨-, -, rfl⟩ := hv
    exact st.count_viewUpdate (some node.value) (some n.value) fun _ => .inl rfl
  | vacantUpdated hv => simp [InsertOp] at hv
  | vacantNoop hv => simp [InsertOp] at hv
  | vacantDelete hv => simp [InsertOp] at hv
  | hitNoop hv => simp [InsertOp] at hv
  | hitDelete d hv => simp [InsertOp] at hv

/-- `RemoveOp` takes one off the count for the node it deletes. -/
theorem removeOp_counts {key : Unit × K} {st : Counter} {found : Option (Node K Unit V W)}
    {ret : Option V} {mid : List (Entry K Unit V W)} {st' : Counter}
    (h : SlotOutcome (RemoveOp (sharedKeyConfig K V W) key) st found ret mid st')
    (hpos : found.isSome → 0 < st.count) :
    st'.count + found.toList.length = st.count + mid.length := by
  cases h with
  | vacantDelete hv =>
    obtain ⟨-, rfl⟩ := Prod.mk.inj hv
    rfl
  | @hitDelete n dr n' st' d hv hd =>
    simp only [RemoveOp, Prod.mk.injEq] at hv
    obtain ⟨-, -, rfl⟩ := hv
    exact st.count_viewUpdate none (some n.value) fun _ => .inr (hpos rfl)
  | vacantInsert hv => simp [RemoveOp] at hv
  | vacantUpdated hv => simp [RemoveOp] at hv
  | vacantNoop hv => simp [RemoveOp] at hv
  | hitUpdated hv => simp [RemoveOp] at hv
  | hitNoop hv => simp [RemoveOp] at hv

section Apply

variable {T Err : Type} {k : K}
  {update : Entry K Unit V W → Entry K Unit V W × Except Err (ApplyOpOutcome T)}
  {insert : Stream' UInt64 → Except Err (Node K Unit V W × T) × Stream' UInt64}

/-- The ext map after `ApplyOp` at a vacant slot: one more for the node `insert` made. -/
theorem applyOp_updateVacant_extMap (st : ApplyState Counter) :
    ((ApplyOp (sharedKeyConfig K V W) ((), k) update insert).updateVacant st).2.extMap =
      match (insert st.rng).1 with
      | .error _ => st.extMap
      | .ok (node, _) => st.extMap.viewUpdate (some node.value) none := by
  rcases hi : insert st.rng with ⟨_ | ⟨node, out⟩, rng⟩
  · simp only [ApplyOp, hi]
  · simp only [ApplyOp, hi]
    split <;> rfl

/-- The ext map after `ApplyOp` at the node of its key: as it was when the closure fails, and
    otherwise told that the old value went and the new one, unless deleted, came. -/
theorem applyOp_updateHit_extMap (st : ApplyState Counter) (n : Node K Unit V W) :
    ((ApplyOp (sharedKeyConfig K V W) ((), k) update insert).updateHit st n).2.2.extMap =
      match (update n.toEntry).2 with
      | .error _ => st.extMap
      | .ok o => st.extMap.viewUpdate (if o.deleteItem then none else some (update n.toEntry).1.value)
          (some n.value) := by
  rcases hu : update n.toEntry with ⟨e, err | o⟩
  · simp only [ApplyOp, hu]
  · simp only [ApplyOp, hu]
    split <;> rfl

/-- `ApplyOp` with a closure that keeps its key counts the node `insert` puts in a vacant slot
    and takes one off for a node the closure deletes; unless the `assert!` on an inserted key
    panicked. -/
theorem applyOp_counts (hkeep : KeepsKeys update) {st st' : ApplyState Counter}
    {found : Option (Node K Unit V W)} {ret : Except Err (T × Option (Node K Unit V W))}
    {mid : List (Entry K Unit V W)}
    (h : SlotOutcome (ApplyOp (sharedKeyConfig K V W) ((), k) update insert) st found ret mid st')
    (hpos : found.isSome → 0 < st.extMap.count) (hpan : st'.panicked = false) :
    st'.extMap.count + found.toList.length = st.extMap.count + mid.length := by
  cases h with
  | @vacantInsert n ret st' hv =>
    have he := congrArg (fun p => p.2.extMap) hv
    simp only [applyOp_updateVacant_extMap] at he
    -- only an `insert` that made a node fills the slot
    rcases hi : insert st.rng with ⟨_ | ⟨node, out⟩, rng⟩
    · simp only [ApplyOp, hi] at hv
      cases (Prod.mk.inj hv).1
    · simp only [hi] at he
      rw [← he]
      exact st.extMap.count_viewUpdate (some node.value) none (by simp)
  | @vacantNoop ret st' hv =>
    have he := congrArg (fun p => p.2.extMap) hv
    simp only [applyOp_updateVacant_extMap] at he
    rcases hi : insert st.rng with ⟨_ | ⟨node, out⟩, rng⟩
    · simp only [hi] at he
      rw [← he]
      rfl
    · -- a node that fails the `assert!` panics
      simp only [ApplyOp, hi] at hv
      split at hv
      · cases (Prod.mk.inj hv).1
      · rw [← (Prod.mk.inj hv).2] at hpan
        cases hpan
  | vacantUpdated hv =>
    simp only [ApplyOp] at hv
    split at hv
    · cases (Prod.mk.inj hv).1
    · split at hv <;> cases (Prod.mk.inj hv).1
  | vacantDelete hv =>
    simp only [ApplyOp] at hv
    split at hv
    · cases (Prod.mk.inj hv).1
    · split at hv <;> cases (Prod.mk.inj hv).1
  | @hitNoop n ret n' st' hv =>
    have he := congrArg (fun p => p.2.2.extMap) hv
    simp only [applyOp_updateHit_extMap] at he
    rcases applyOp_updateHit_cases (sharedKeyConfig K V W) ((), k) update insert st n with
      ⟨err, hu, -⟩ | ⟨o, -, -, hres⟩ | ⟨o, -, -, hres⟩
    · simp only [hu] at he
      rw [← he]
      rfl
    · rw [hv] at hres
      cases hres
    · rw [hv] at hres
      cases hres
  | @hitUpdated n uw ret n' st' hv =>
    have he := congrArg (fun p => p.2.2.extMap) hv
    simp only [applyOp_updateHit_extMap] at he
    rcases applyOp_updateHit_cases (sharedKeyConfig K V W) ((), k) update insert st n with
      ⟨err, -, hres⟩ | ⟨o, -, -, hres⟩ | ⟨o, hu, hkd, -⟩
    · rw [hv] at hres
      cases hres
    · rw [hv] at hres
      cases hres
    · -- an update in place: the old value goes and the new one comes
      have hdel : o.deleteItem = false := (Bool.or_eq_false_iff.mp hkd).2
      simp only [hu, hdel, Bool.false_eq_true, if_false] at he
      rw [← he]
      exact st.extMap.count_viewUpdate (some _) (some n.value) fun _ => .inl rfl
  | @hitDelete n dr n' st' d hv hd =>
    have he := congrArg (fun p => p.2.2.extMap) hv
    simp only [applyOp_updateHit_extMap] at he
    rcases applyOp_updateHit_cases (sharedKeyConfig K V W) ((), k) update insert st n with
      ⟨err, -, hres⟩ | ⟨o, hu, hkd, -⟩ | ⟨o, -, -, hres⟩
    · rw [hv] at hres
      cases hres
    · -- the key stays, so the node goes because the closure deletes it
      have hdel : o.deleteItem = true := by
        rw [hkeep n.toEntry o hu, Bool.false_or] at hkd
        exact hkd
      simp only [hu, hdel, if_true] at he
      rw [← he]
      exact st.extMap.count_viewUpdate none (some n.value) fun _ => .inr (hpos rfl)
    · rw [hv] at hres
      cases hres

/-- `ApplyOp` with a closure that keeps its key hands back no node to insert again. -/
theorem applyOp_ret_keepsKeys (hkeep : KeepsKeys update) (hins : InsertHonours k insert)
    {st st' : ApplyState Counter} {found : Option (Node K Unit V W)}
    {ret : Except Err (T × Option (Node K Unit V W))} {mid : List (Entry K Unit V W)}
    (h : SlotOutcome (ApplyOp (sharedKeyConfig K V W) ((), k) update insert) st found ret mid st')
    (out : T) (node : Node K Unit V W) : ret ≠ .ok (out, some node) := by
  cases found with
  | none =>
    obtain ⟨-, ⟨err, -, rfl, -⟩ | ⟨node', out', -, -, rfl, -⟩⟩ := applyOp_vacant_outcome hins h
    · intro hr
      cases hr
    · intro hr
      cases hr
  | some n =>
    obtain ⟨-, ⟨err, -, rfl, -⟩ | ⟨o, hu, hkd, -, d, -, rfl⟩ | ⟨o, -, -, rfl, -⟩⟩ :=
      applyOp_hit_outcome h
    · intro hr
      cases hr
    · -- a deletion, since the key stays
      have hdel : o.deleteItem = true := by
        rw [hkeep n.toEntry o hu, Bool.false_or] at hkd
        exact hkd
      rw [hdel, if_pos rfl]
      intro hr
      cases hr
    · intro hr
      cases hr

end Apply

end Slot

/-! ## `len()` over the map's operations -/

section Ops

variable [LinearOrder K]

/-- A sorted tree's entries are those below a key, the key's node if it has one, and those
    above. -/
theorem length_model_split {t : Tree K Unit V W} (hs : t.model.Sorted) (k : K) :
    t.model.length =
      (t.model.before k).length + (t.findRank keyRank k).toList.length + (t.model.after k).length := by
  cases hfound : t.findRank keyRank k with
  | none =>
    conv_lhs => rw [model_split_none hs hfound]
    simp
  | some n =>
    conv_lhs => rw [model_split_some hs hfound]
    simp only [List.length_append, List.length_cons, Option.toList_some, List.length_nil]
    omega

/-- A count that was right and moved by what the slot of `k` gained is right for the tree
    `update_inner` leaves. -/
theorem count_after_slot {t : Tree K Unit V W} (hs : t.model.Sorted) (k : K)
    {mid : List (Entry K Unit V W)} {c c' : Nat} (hc : c = t.model.length)
    (h : c' + (t.findRank keyRank k).toList.length = c + mid.length) :
    c' = (t.model.before k ++ mid.map Entry.triple ++ t.model.after k).length := by
  have hsplit := length_model_split hs k
  simp only [List.length_append, List.length_map]
  omega

/-- A right count of a tree with a node of the key is positive. -/
theorem count_pos_of_found {t : Tree K Unit V W} (hs : t.model.Sorted) (k : K) {c : Nat}
    (hc : c = t.model.length) (hfound : (t.findRank keyRank k).isSome) : 0 < c := by
  have hsplit := length_model_split hs k
  obtain ⟨n, hn⟩ := Option.isSome_iff_exists.mp hfound
  rw [hn, Option.toList_some, List.length_singleton] at hsplit
  omega

variable [Add W] [Zero W]

/-- **`insert` keeps `len()` right.** -/
theorem TreapMap.insert_len [DecidableEq W] {m : TreapMap K Unit V W Counter} (hs : m.model.Sorted)
    (hc : m.len (sharedKeyConfig K V W) = m.model.length) (k : K) (v : V) (w : W) :
    (m.insert (sharedKeyConfig K V W) k v w).2.len (sharedKeyConfig K V W) =
      (m.insert (sharedKeyConfig K V W) k v w).2.model.length := by
  simp only [TreapMap.model] at hs hc ⊢
  obtain ⟨mid, hout, hmodel⟩ := updateInner_model
    (InsertOp (sharedKeyConfig K V W) (Node.new k v () w m.rng.head)) (fun _ _ => rfl) m.extMap hs
  change SlotOutcome _ _ (Tree.findRank keyRank k m.root) _ mid
    (m.insert (sharedKeyConfig K V W) k v w).2.extMap at hout
  change (m.insert (sharedKeyConfig K V W) k v w).2.root.model =
    m.root.model.before k ++ _ ++ m.root.model.after k at hmodel
  rw [hmodel]
  exact count_after_slot hs k hc (insertOp_counts hout)

/-- **`remove` keeps `len()` right.** -/
theorem TreapMap.remove_len {m : TreapMap K Unit V W Counter} (hs : m.model.Sorted)
    (hc : m.len (sharedKeyConfig K V W) = m.model.length) (k : K) :
    (m.remove (sharedKeyConfig K V W) k).2.len (sharedKeyConfig K V W) =
      (m.remove (sharedKeyConfig K V W) k).2.model.length := by
  simp only [TreapMap.model] at hs hc ⊢
  obtain ⟨mid, hout, hmodel⟩ := updateInner_model (RemoveOp (sharedKeyConfig K V W) ((), k))
    (fun _ _ => rfl) m.extMap hs
  change SlotOutcome _ _ (Tree.findRank keyRank k m.root) _ mid
    (m.remove (sharedKeyConfig K V W) k).2.extMap at hout
  change (m.remove (sharedKeyConfig K V W) k).2.root.model =
    m.root.model.before k ++ _ ++ m.root.model.after k at hmodel
  rw [hmodel]
  exact count_after_slot hs k hc (removeOp_counts hout (count_pos_of_found hs k hc))

/-- **`update` with a closure that keeps its key keeps `len()` right.** -/
theorem TreapMap.update_len [DecidableEq W] {T Err : Type} {m : TreapMap K Unit V W Counter}
    (hs : m.model.Sorted) (hc : m.len (sharedKeyConfig K V W) = m.model.length) {k : K}
    {update : Entry K Unit V W → Entry K Unit V W × Except Err (ApplyOpOutcome T)}
    {insert : Stream' UInt64 → Except Err (Node K Unit V W × T) × Stream' UInt64}
    (hins : InsertHonours k insert) (hkeep : KeepsKeys update) {r : Except Err T}
    {m' : TreapMap K Unit V W Counter}
    (h : m.update (sharedKeyConfig K V W) k update insert = some (r, m')) :
    m'.len (sharedKeyConfig K V W) = m'.model.length := by
  simp only [TreapMap.model] at hs hc ⊢
  have hhit : ∀ st n,
      ((ApplyOp (sharedKeyConfig K V W) ((), k) update insert).updateHit st n).1.isInsert = false := by
    intro st n
    rcases applyOp_updateHit_cases (sharedKeyConfig K V W) ((), k) update insert st n with
      ⟨_, _, h⟩ | ⟨_, _, _, h⟩ | ⟨_, _, _, h⟩ <;> rw [h] <;> rfl
  obtain ⟨mid, hout, hmodel⟩ := updateInner_model
    (ApplyOp (sharedKeyConfig K V W) ((), k) update insert) hhit ⟨m.extMap, m.rng, false⟩ hs
  change SlotOutcome _ _ (Tree.findRank keyRank k m.root) _ mid _ at hout
  change _ = m.root.model.before k ++ _ ++ m.root.model.after k at hmodel
  unfold TreapMap.update at h
  split at h
  · rename_i hsk
    cases hsk
  rename_i sortKey hsk
  cases sortKey
  rcases hrun : updateInner (sharedKeyConfig K V W) (ApplyOp (sharedKeyConfig K V W) ((), k) update insert)
    ⟨m.extMap, m.rng, false⟩ m.root with ⟨⟨res, uw, up⟩, root, st⟩
  rw [hrun] at hout hmodel h
  simp only at hout hmodel h
  split at h
  · cases h
  rename_i hpan
  have hcount := count_after_slot hs k hc
    (applyOp_counts hkeep hout (count_pos_of_found hs k hc) (by simpa using hpan))
  rw [← hmodel] at hcount
  -- the closure keeps its key, so no node goes in again
  split at h
  · obtain ⟨-, rfl⟩ := Prod.mk.inj (Option.some.inj h)
    exact hcount
  · obtain ⟨-, rfl⟩ := Prod.mk.inj (Option.some.inj h)
    exact hcount
  · rename_i out node
    exact absurd rfl (applyOp_ret_keepsKeys hkeep hins hout out node)

end Ops

end Mazze.Treap
