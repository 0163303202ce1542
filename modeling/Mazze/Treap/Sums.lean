import Mazze.Treap.Ordered
import Mazze.Treap.SearchSpec

/-!
# `update_inner` keeps the subtree sums

The search of `search.rs` reads the sums `update_weight` cached in the nodes (`SumsOk`). Every
change goes through `update_inner`, which refreshes the sum of each node on the path back up
while the result asks for it (`update_weight`), and the rotations and the steps of `delete`
refresh the nodes they move. So the sums stay right as long as the updater asks for a refresh
whenever it writes a node of another weight (`KeepsSums`): a subtree that did not ask kept its
sum, and the nodes above it need none (`updateInner_sumsOk`).

A property `Q` of the weights that the updater keeps holds of every node afterwards, and a
property `R` of its returns holds of what `update_inner` returns (`updateInner_weights`).
`TreapMap::insert` and `TreapMap::update` then keep both the sums and `Q` (`TreeOk`), for
closures that keep `Q` and ask for a refresh when they change a weight
(`TreapMap.insert_treeOk`, `TreapMap.update_treeOk`).
-/

set_option autoImplicit false

namespace Mazze.Treap

variable {K S V W E : Type} {C : TreapMapConfig K S V W E}

/-! ## Refreshing and rotating -/

theorem sumsOk_node_updateWeight (n : Node K S V W) {l r : Tree K S V W} (hl : SumsOk C l)
    (hr : SumsOk C r) : SumsOk C (.node (n.updateWeight C l r) l r) :=
  ⟨rfl, hl, hr⟩

theorem sumsOk_updateWeight {t : Tree K S V W} (ht : SumsOk C t) :
    SumsOk C (Tree.updateWeight C t) := by
  cases t with
  | nil => trivial
  | node n l r => exact sumsOk_node_updateWeight n ht.2.1 ht.2.2

theorem sumsOk_rightRotate (y x : Node K S V W) {a b c : Tree K S V W} (ha : SumsOk C a)
    (hb : SumsOk C b) (hc : SumsOk C c) : SumsOk C (rightRotate C y x a b c) :=
  sumsOk_node_updateWeight x ha (sumsOk_node_updateWeight y hb hc)

theorem sumsOk_leftRotate (x y : Node K S V W) {a b c : Tree K S V W} (ha : SumsOk C a)
    (hb : SumsOk C b) (hc : SumsOk C c) : SumsOk C (leftRotate C x a y b c) :=
  sumsOk_node_updateWeight y (sumsOk_node_updateWeight x ha hb) hc

/-- `delete` refreshes every node it rotates above the deleted one. -/
theorem sumsOk_delete (x : Node K S V W) (l r : Tree K S V W) :
    SumsOk C l → SumsOk C r → SumsOk C (delete C x l r).2 := by
  fun_induction delete C x l r with
  | case1 x a y b c x' res sub hdel hnext ih =>
    rintro ha ⟨-, hb, hc⟩
    rw [hdel] at ih
    simp only [x'] at hdel
    simp only [hnext, hdel]
    exact sumsOk_node_updateWeight _ (ih ha hb) hc
  | case2 x w a b c x' res sub hdel hnext ih =>
    rintro ⟨-, ha, hb⟩ hc
    rw [hdel] at ih
    simp only [x'] at hdel
    simp only [hnext, hdel]
    exact sumsOk_node_updateWeight _ ha (ih hb hc)
  | case3 x l r hleft hright =>
    -- `next_root` lifts no child, so the slot is left vacant
    intro _ _
    split
    · exact (hright _ _ _ ‹_› rfl).elim
    · exact (hleft _ _ _ ‹_› rfl).elim
    · trivial

/-- Rebalancing keeps the sums over children whose sums are right, when it refreshes the node
    or the node's sum is still right; it rotates only while the path asks for priorities,
    which it does only after a refresh, so without a refresh the node stays on top with its
    sum. -/
theorem sumsOk_rebalance (dir : Direction) (uw up : Bool) (n : Node K S V W) {l r : Tree K S V W}
    (hl : SumsOk C l) (hr : SumsOk C r)
    (hn : uw = false → n.sumWeight = accureChild C (accureChild C n.weight l) r)
    (hup : up = true → uw = true) :
    SumsOk C (rebalance C dir uw up n l r).1 ∧
      (uw = false → ∀ x, accureChild C x (rebalance C dir uw up n l r).1 = C.consolidate x n.sumWeight) ∧
      ((rebalance C dir uw up n l r).2 = true → uw = true) := by
  cases up with
  | false =>
    refine ⟨?_, ?_, fun h => by simp [rebalance] at h⟩
    · cases uw with
      | false => exact ⟨hn rfl, hl, hr⟩
      | true => exact sumsOk_node_updateWeight n hl hr
    · rintro rfl x
      rfl
  | true =>
    obtain rfl := hup rfl
    refine ⟨?_, nofun, fun _ => rfl⟩
    unfold rebalance
    simp only [if_true]
    split
    · split_ifs
      · exact sumsOk_rightRotate _ _ hl.2.1 hl.2.2 hr
      · exact sumsOk_node_updateWeight n hl hr
    · split_ifs
      · exact sumsOk_leftRotate _ _ hl hr.2.1 hr.2.2
      · exact sumsOk_node_updateWeight n hl hr
    · exact sumsOk_node_updateWeight n hl hr

/-! ## `update_inner` -/

/-- Whether a result makes `update_inner` refresh the sums at the slot and above it. -/
def OpResult.refreshes {N Ret DeleteRet : Type} : OpResult N Ret DeleteRet → Bool
  | .updated uw _ => uw
  | .noop _ => false
  | .insertOnVacant .. => true
  | .delete _ => true

variable {σ Ret DeleteRet : Type} (u : TreapNodeUpdate K S V W σ Ret DeleteRet)

/-- The updater writes a node of another weight, or of another sum, only with a result that
    asks for a refresh. -/
def KeepsSums : Prop :=
  ∀ st n, (u.updateHit st n).1.refreshes = false →
    (u.updateHit st n).2.1.weight = n.weight ∧ (u.updateHit st n).2.1.sumWeight = n.sumWeight

variable (C) in
/-- What `update_inner` leaves in the slot: the result of `process_update_result`, refreshed
    when it asks for it. -/
def slotAfter (t : Tree K S V W) (res : OpResult (Node K S V W) Ret DeleteRet) :
    (Ret × Bool × Bool) × Tree K S V W :=
  let (out, t) := processUpdateResult C u t res
  (out, if out.2.1 then Tree.updateWeight C t else t)

/-- The slot keeps its sums: refreshed when the result asks for it, else untouched. -/
theorem slotAfter_sumsOk {t : Tree K S V W} (res : OpResult (Node K S V W) Ret DeleteRet)
    (hsub : ∀ n l r, t = .node n l r → SumsOk C l ∧ SumsOk C r)
    (hkeep : res.refreshes = false → SumsOk C t) :
    SumsOk C (slotAfter C u t res).2 ∧ (slotAfter C u t res).1.2.1 = res.refreshes ∧
      (res.refreshes = false → (slotAfter C u t res).2 = t) ∧
      ((slotAfter C u t res).1.2.2 = true → (slotAfter C u t res).1.2.1 = true) := by
  cases res with
  | insertOnVacant n ret =>
    exact ⟨sumsOk_node_updateWeight n trivial trivial, rfl, nofun, fun _ => rfl⟩
  | updated uw ret =>
    cases uw with
    | false => exact ⟨hkeep rfl, rfl, fun _ => rfl, nofun⟩
    | true =>
      refine ⟨?_, rfl, nofun, nofun⟩
      cases t with
      | nil => trivial
      | node n l r =>
        obtain ⟨hl, hr⟩ := hsub n l r rfl
        exact sumsOk_node_updateWeight n hl hr
  | noop ret => exact ⟨hkeep rfl, rfl, fun _ => rfl, nofun⟩
  | delete dr =>
    cases t with
    | nil => exact ⟨trivial, rfl, nofun, fun _ => rfl⟩
    | node n l r =>
      obtain ⟨hl, hr⟩ := hsub n l r rfl
      exact ⟨sumsOk_updateWeight (sumsOk_delete n l r hl hr), rfl, nofun, fun _ => rfl⟩


theorem updateInner_nil (st : σ) :
    updateInner C u st .nil =
      ((slotAfter C u .nil (u.updateVacant st).1).1, (slotAfter C u .nil (u.updateVacant st).1).2,
        (u.updateVacant st).2) := rfl

theorem updateInner_hit (st : σ) {n : Node K S V W} (l r : Tree K S V W)
    (h : C.nextNodeDir u.treapKey n.treapKey = none) :
    updateInner C u st (.node n l r) =
      ((slotAfter C u (.node (u.updateHit st n).2.1 l r) (u.updateHit st n).1).1,
        (slotAfter C u (.node (u.updateHit st n).2.1 l r) (u.updateHit st n).1).2,
        (u.updateHit st n).2.2) := by
  simp only [updateInner, h]
  rfl

/-- **`update_inner` keeps the sums**, by induction on the tree: the slot is refreshed when the
    result asks for it, each node on the path back up is refreshed while it does, and a
    subtree that did not ask kept its sum. -/
theorem updateInner_sumsOk (hu : KeepsSums u) (st : σ) (t : Tree K S V W) (ht : SumsOk C t) :
    SumsOk C (updateInner C u st t).2.1 ∧
      ((updateInner C u st t).1.2.1 = false →
        ∀ x, accureChild C x (updateInner C u st t).2.1 = accureChild C x t) ∧
      ((updateInner C u st t).1.2.2 = true → (updateInner C u st t).1.2.1 = true) := by
  induction t generalizing st with
  | nil =>
    obtain ⟨hs, hflag, hkeep, hup⟩ := slotAfter_sumsOk u (u.updateVacant st).1 (t := .nil)
      (fun _ _ _ h => by cases h) (fun _ => trivial)
    rw [updateInner_nil]
    exact ⟨hs, fun h x => by rw [hkeep (hflag ▸ h)], hup⟩
  | node n l r ihl ihr =>
    obtain ⟨hsum, hl, hr⟩ := ht
    cases hdir : C.nextNodeDir u.treapKey n.treapKey with
    | none =>
      -- a write that asks for no refresh keeps the node's weight and sum
      have hsame := hu st n
      obtain ⟨hs, hflag, hkeep, hup⟩ := slotAfter_sumsOk u (u.updateHit st n).1
        (t := .node (u.updateHit st n).2.1 l r) (fun _ _ _ h => by cases h; exact ⟨hl, hr⟩)
        (fun h => ⟨by rw [(hsame h).1, (hsame h).2]; exact hsum, hl, hr⟩)
      rw [updateInner_hit u st l r hdir]
      refine ⟨hs, fun h x => ?_, hup⟩
      rw [hkeep (hflag ▸ h)]
      simp only [accureChild, (hsame (hflag ▸ h)).2]
    | some dir =>
      -- the walk goes on in one child, then rebalances the node over what came back
      cases dir with
      | left =>
        obtain ⟨hl', hacc, hup⟩ := ihl st hl
        rcases hrec : updateInner C u st l with ⟨⟨ret, uw, up⟩, l', st'⟩
        rw [hrec] at hl' hacc hup
        simp only [updateInner, hdir, hrec]
        exact sumsOk_rebalance .left uw up n hl' hr (fun h => by rw [hacc h]; exact hsum) hup
      | right =>
        obtain ⟨hr', hacc, hup⟩ := ihr st hr
        rcases hrec : updateInner C u st r with ⟨⟨ret, uw, up⟩, r', st'⟩
        rw [hrec] at hr' hacc hup
        simp only [updateInner, hdir, hrec]
        exact sumsOk_rebalance .right uw up n hl hr' (fun h => by rw [hacc h]; exact hsum) hup

/-! ## Weights and returns -/

/-- The weight of the node at the top of a tree. -/
def Tree.topWeight : Tree K S V W → Option W
  | .nil => none
  | .node n _ _ => some n.weight

variable (Q : W → Prop) (R : Ret → Prop)

/-- A result whose inserted node has a weight `Q` holds of and whose return satisfies `R`;
    after a deletion, whatever node of weight `w` `handle_delete` is given. -/
def ResultOk (w : Option W) : OpResult (Node K S V W) Ret DeleteRet → Prop
  | .insertOnVacant n ret => Q n.weight ∧ R ret
  | .updated _ ret => R ret
  | .noop ret => R ret
  | .delete dr => ∀ d : Option (Node K S V W), d.map (fun n => n.weight) = w → R (u.handleDelete d dr)

/-- The updater keeps `Q` on what it writes and returns what satisfies `R`. -/
structure KeepsWeights : Prop where
  vacant : ∀ st, ResultOk u Q R none (u.updateVacant st).1
  hit : ∀ st n, Q n.weight → Q (u.updateHit st n).2.1.weight ∧
    ResultOk u Q R (some (u.updateHit st n).2.1.weight) (u.updateHit st n).1

variable {Q R}

theorem slotAfter_weights {t : Tree K S V W} (res : OpResult (Node K S V W) Ret DeleteRet)
    (ht : ∀ e ∈ t.entries, Q e.weight) (hres : ResultOk u Q R (Tree.topWeight t) res) :
    (∀ e ∈ (slotAfter C u t res).2.entries, Q e.weight) ∧ R (slotAfter C u t res).1.1 := by
  cases res with
  | insertOnVacant n ret =>
    refine ⟨fun e he => ?_, hres.2⟩
    simp only [slotAfter, processUpdateResult, if_true, Tree.entries_updateWeight, Tree.entries_node,
      Tree.entries_nil, List.nil_append, List.mem_singleton] at he
    rw [he]
    exact hres.1
  | updated uw ret =>
    refine ⟨fun e he => ht e ?_, hres⟩
    cases uw
    · exact he
    · simpa [slotAfter, processUpdateResult] using he
  | noop ret => exact ⟨ht, hres⟩
  | delete dr =>
    cases t with
    | nil => exact ⟨fun e he => by simp [slotAfter, processUpdateResult] at he, hres none rfl⟩
    | node n l r =>
      -- the deleted node is the one that stood in the slot
      obtain ⟨hd, hdel⟩ := delete_entries C n l r
      refine ⟨fun e he => ht e ?_, hres (some (delete C n l r).1) ?_⟩
      · simp only [slotAfter, processUpdateResult, if_true, Tree.entries_updateWeight, hdel,
          List.mem_append] at he
        simp only [Tree.entries_node, List.mem_append, List.mem_cons]
        tauto
      · simp only [Option.map_some, Tree.topWeight, Option.some.injEq]
        exact congrArg Entry.weight hd

/-- **`update_inner` keeps `Q` on every weight** and returns what satisfies `R`, by induction
    on the tree: rebalancing moves the entries and changes none. -/
theorem updateInner_weights (hu : KeepsWeights u Q R) (st : σ) (t : Tree K S V W)
    (ht : ∀ e ∈ t.entries, Q e.weight) :
    (∀ e ∈ (updateInner C u st t).2.1.entries, Q e.weight) ∧ R (updateInner C u st t).1.1 := by
  induction t generalizing st with
  | nil =>
    rw [updateInner_nil]
    exact slotAfter_weights u _ ht (hu.vacant st)
  | node n l r ihl ihr =>
    simp only [Tree.entries_node, List.mem_append, List.mem_cons] at ht
    have hl : ∀ e ∈ Tree.entries l, Q e.weight := fun e he => ht e (.inl he)
    have hr : ∀ e ∈ Tree.entries r, Q e.weight := fun e he => ht e (.inr (.inr he))
    cases hdir : C.nextNodeDir u.treapKey n.treapKey with
    | none =>
      obtain ⟨hn', hres⟩ := hu.hit st n (ht n.toEntry (.inr (.inl rfl)))
      rw [updateInner_hit u st l r hdir]
      refine slotAfter_weights u _ (fun e he => ?_) hres
      simp only [Tree.entries_node, List.mem_append, List.mem_cons] at he
      rcases he with he | rfl | he
      · exact hl e he
      · exact hn'
      · exact hr e he
    | some dir =>
      cases dir with
      | left =>
        obtain ⟨hl', hret⟩ := ihl st hl
        rcases hrec : updateInner C u st l with ⟨⟨ret, uw, up⟩, l', st'⟩
        rw [hrec] at hl' hret
        simp only [updateInner, hdir, hrec]
        refine ⟨fun e he => ?_, hret⟩
        rw [entries_rebalance, Tree.entries_node] at he
        simp only [List.mem_append, List.mem_cons] at he
        rcases he with he | rfl | he
        · exact hl' e he
        · exact ht _ (.inr (.inl rfl))
        · exact hr e he
      | right =>
        obtain ⟨hr', hret⟩ := ihr st hr
        rcases hrec : updateInner C u st r with ⟨⟨ret, uw, up⟩, r', st'⟩
        rw [hrec] at hr' hret
        simp only [updateInner, hdir, hrec]
        refine ⟨fun e he => ?_, hret⟩
        rw [entries_rebalance, Tree.entries_node] at he
        simp only [List.mem_append, List.mem_cons] at he
        rcases he with he | rfl | he
        · exact hl e he
        · exact ht _ (.inr (.inl rfl))
        · exact hr' e he

/-! ## The map's operations -/

variable (C Q) in
/-- A tree whose sums are right and whose every weight satisfies `Q`. -/
structure TreeOk (t : Tree K S V W) : Prop where
  sums : SumsOk C t
  weights : ∀ e ∈ t.entries, Q e.weight

theorem updateInner_treeOk (hs : KeepsSums u) (hw : KeepsWeights u Q R) (st : σ)
    {t : Tree K S V W} (ht : TreeOk C Q t) :
    TreeOk C Q (updateInner C u st t).2.1 ∧ R (updateInner C u st t).1.1 :=
  ⟨⟨(updateInner_sumsOk u hs st t ht.sums).1, (updateInner_weights u hw st t ht.weights).1⟩,
    (updateInner_weights u hw st t ht.weights).2⟩

section Map

variable [DecidableEq W]

theorem insertOp_keepsSums (node : Node K S V W) : KeepsSums (InsertOp C node) := by
  intro st n h
  have hw : n.weight = node.weight := by simpa [InsertOp, OpResult.refreshes] using h
  exact ⟨hw.symm, rfl⟩

theorem insertOp_keepsWeights {node : Node K S V W} (hnode : Q node.weight) :
    KeepsWeights (InsertOp C node) Q fun _ => True :=
  ⟨fun _ => ⟨hnode, trivial⟩, fun _ _ _ => ⟨hnode, trivial⟩⟩

/-- `TreapMap::insert` keeps the sums and `Q`, for a weight `Q` holds of. -/
theorem TreapMap.insert_treeOk {m : TreapMap K S V W E} (hm : TreeOk C Q m.root) (key : K)
    (value : V) {weight : W} (hw : Q weight) : TreeOk C Q (m.insert C key value weight).2.root :=
  let node := Node.new key value (C.makeSortKey m.extMap key value) weight m.rng.head
  (updateInner_treeOk (InsertOp C node) (insertOp_keepsSums node)
    (insertOp_keepsWeights hw : KeepsWeights (InsertOp C node) Q fun _ => True) m.extMap hm).1


end Map

section Apply

variable {T Err : Type} {key : S × K}
  {update : Entry K S V W → Entry K S V W × Except Err (ApplyOpOutcome T)}
  {insert : Stream' UInt64 → Except Err (Node K S V W × T) × Stream' UInt64}

theorem applyOp_updateHit_node (st : ApplyState E) (n : Node K S V W) :
    ((ApplyOp C key update insert).updateHit st n).2.1 = { n with toEntry := (update n.toEntry).1 } := by
  simp only [ApplyOp]
  split
  · rfl
  · split <;> rfl

variable (C key update insert) in
/-- What `ApplyOp` answers at the node of its key: a no-op when the closure fails, a deletion
    when it asks for a new key or for the node to go, and otherwise an update. -/
theorem applyOp_updateHit_cases (st : ApplyState E) (n : Node K S V W) :
    (∃ err, (update n.toEntry).2 = .error err ∧
        ((ApplyOp C key update insert).updateHit st n).1 = .noop (.error err)) ∨
      (∃ o, (update n.toEntry).2 = .ok o ∧ (o.updateKey || o.deleteItem) = true ∧
        ((ApplyOp C key update insert).updateHit st n).1 = .delete (o.out, o.deleteItem)) ∨
      (∃ o, (update n.toEntry).2 = .ok o ∧ (o.updateKey || o.deleteItem) = false ∧
        ((ApplyOp C key update insert).updateHit st n).1 = .updated o.updateWeight (.ok (o.out, none))) := by
  simp only [ApplyOp]
  split
  · exact .inl ⟨_, ‹_›, rfl⟩
  · rename_i o ho
    split
    · exact .inr (.inl ⟨o, ho, ‹_›, rfl⟩)
    · rename_i hkd
      exact .inr (.inr ⟨o, ho, by simpa using hkd, rfl⟩)

variable (update) in
/-- The caller's `update` writes an entry of another weight only with an outcome that asks for
    a refresh, a new key or a deletion. -/
def RefreshesOnChange : Prop :=
  ∀ e, (update e).1.weight ≠ e.weight →
    ∃ o, (update e).2 = .ok o ∧ (o.updateWeight || o.updateKey || o.deleteItem) = true

theorem applyOp_keepsSums (hkeep : RefreshesOnChange update) :
    KeepsSums (ApplyOp C key update insert) := by
  intro st n h
  rw [applyOp_updateHit_node]
  refine ⟨?_, rfl⟩
  by_contra hne
  obtain ⟨o, ho, hflags⟩ := hkeep n.toEntry hne
  rcases applyOp_updateHit_cases C key update insert st n with
    ⟨err, he, -⟩ | ⟨o', ho', -, hres⟩ | ⟨o', ho', hkd, hres⟩
  · rw [ho] at he
    cases he
  · rw [hres] at h
    cases h
  · -- an update that asks for nothing: the closure did not change the weight
    obtain rfl : o = o' := Except.ok.inj (ho.symm.trans ho')
    rw [hres] at h
    simp only [OpResult.refreshes] at h
    rw [Bool.or_assoc, h, hkd] at hflags
    cases hflags

/-- What `update` returns through `ApplyOp`: a node to insert again has a weight `Q` holds of. -/
def ReinsertOk (Q : W → Prop) (res : Except Err (T × Option (Node K S V W))) : Prop :=
  ∀ ret node, res = .ok (ret, some node) → Q node.weight

theorem applyOp_keepsWeights (hupd : ∀ e, Q e.weight → Q (update e).1.weight)
    (hins : ∀ rng node ret rng', insert rng = (.ok (node, ret), rng') → Q node.weight) :
    KeepsWeights (ApplyOp C key update insert) Q (ReinsertOk Q) := by
  refine ⟨fun st => ?_, fun st n hn => ⟨?_, ?_⟩⟩
  · -- a vacant slot: the node `insert` made, if it goes in
    simp only [ApplyOp]
    split
    · exact fun _ _ h => by cases h
    · rename_i node ret rng hr
      split
      · exact ⟨hins _ _ _ _ hr, fun _ _ h => by cases h⟩
      · exact fun _ _ h => by cases h
  · rw [applyOp_updateHit_node]
    exact hupd _ hn
  · rw [applyOp_updateHit_node]
    rcases applyOp_updateHit_cases C key update insert st n with
      ⟨err, -, hres⟩ | ⟨o, -, -, hres⟩ | ⟨o, -, -, hres⟩ <;> rw [hres]
    · exact fun _ _ h => by cases h
    · -- a deletion hands back the deleted node, which carries the written weight
      intro d hd ret node h
      simp only [ApplyOp, Except.ok.injEq, Prod.mk.injEq] at h
      obtain ⟨-, h⟩ := h
      split at h
      · cases h
      · subst h
        simp only [Option.map_some, Option.some.injEq] at hd
        rw [hd]
        exact hupd _ hn
    · exact fun _ _ h => by simp at h

end Apply

theorem TreapMap.update_treeOk [DecidableEq W] {T Err : Type} {m m' : TreapMap K S V W E}
    {key : K} {update : Entry K S V W → Entry K S V W × Except Err (ApplyOpOutcome T)}
    {insert : Stream' UInt64 → Except Err (Node K S V W × T) × Stream' UInt64} {r : Except Err T}
    (hm : TreeOk C Q m.root) (hupd : ∀ e, Q e.weight → Q (update e).1.weight)
    (hkeep : RefreshesOnChange update)
    (hins : ∀ rng node ret rng', insert rng = (.ok (node, ret), rng') → Q node.weight)
    (h : m.update C key update insert = some (r, m')) : TreeOk C Q m'.root := by
  unfold TreapMap.update at h
  split at h
  · -- no sort key: the node `insert` makes goes in through `TreapMap::insert`
    split at h
    · rename_i node ret rng hr
      obtain ⟨-, rfl⟩ := Prod.mk.inj (Option.some.inj h)
      exact TreapMap.insert_treeOk (m := ⟨m.root, m.extMap, rng⟩) hm _ _ (hins _ _ _ _ hr)
    · obtain ⟨-, rfl⟩ := Prod.mk.inj (Option.some.inj h)
      exact hm
  · -- `ApplyOp` at the sort key, then the node it hands back goes in again
    rename_i sortKey hsk
    obtain ⟨ht, hret⟩ := updateInner_treeOk (ApplyOp C (sortKey, key) update insert)
      (applyOp_keepsSums hkeep) (applyOp_keepsWeights hupd hins) ⟨m.extMap, m.rng, false⟩ hm
    rcases hrun : updateInner C (ApplyOp C (sortKey, key) update insert) ⟨m.extMap, m.rng, false⟩
      m.root with ⟨⟨res, uw, up⟩, root, st⟩
    rw [hrun] at h ht hret
    simp only at h
    split at h
    · cases h
    · split at h
      · obtain ⟨-, rfl⟩ := Prod.mk.inj (Option.some.inj h)
        exact ht
      · obtain ⟨-, rfl⟩ := Prod.mk.inj (Option.some.inj h)
        exact ht
      · rename_i ret node
        obtain ⟨-, rfl⟩ := Prod.mk.inj (Option.some.inj h)
        exact TreapMap.insert_treeOk (m := ⟨root, st.extMap, st.rng⟩) ht _ _ (hret ret node rfl)

end Mazze.Treap
