import Mazze.Treap.Map

/-!
# Treaps as search trees

A treap is a search tree under `next_node_dir`: where the config compares treap keys by a rank
in a linear order (`Compares`), the in-order list of a tree built by `update_inner` ascends by
rank (`Sorted`). What a tree stores is its in-order list of entries, the fields of its nodes
other than the subtree sums and the priorities: rotations, sums and the rotations of `delete`
keep it (`entries_rebalance`, `delete_entries`). `update_inner` on a sorted tree changes only
the slot of its key: the entries below the key stay in front, those above stay behind, and in
between is what the updater made of the slot (`updateInner_spec`).
-/

set_option autoImplicit false

namespace Mazze.Treap

variable {K S V W E : Type}

/-- `(sort_key, key)` of an entry. -/
def Entry.treapKey (e : Entry K S V W) : S × K := (e.sortKey, e.key)

@[simp] theorem Node.treapKey_toEntry (n : Node K S V W) : n.toEntry.treapKey = n.treapKey := rfl

/-- The entries a tree stores, in order. -/
def Tree.entries (t : Tree K S V W) : List (Entry K S V W) := t.toList.map Node.toEntry

@[simp] theorem Tree.entries_nil : Tree.entries (BinTree.nil : Tree K S V W) = [] := rfl

@[simp] theorem Tree.entries_node (n : Node K S V W) (l r : Tree K S V W) :
    Tree.entries (BinTree.node n l r) = l.entries ++ n.toEntry :: r.entries := by
  simp [Tree.entries]

section Config

variable (C : TreapMapConfig K S V W E)

@[simp] theorem Node.toEntry_updateWeight (n : Node K S V W) (l r : Tree K S V W) :
    (n.updateWeight C l r).toEntry = n.toEntry := rfl

@[simp] theorem Node.priority_updateWeight (n : Node K S V W) (l r : Tree K S V W) :
    (n.updateWeight C l r).priority = n.priority := rfl

@[simp] theorem Tree.entries_updateWeight (t : Tree K S V W) :
    (Tree.updateWeight C t).entries = t.entries := by
  cases t <;> simp [Tree.updateWeight]

theorem entries_rightRotate (y x : Node K S V W) (a b c : Tree K S V W) :
    (rightRotate C y x a b c).entries = Tree.entries (BinTree.node y (.node x a b) c) := by
  simp [rightRotate]

theorem entries_leftRotate (x : Node K S V W) (a : Tree K S V W) (y : Node K S V W)
    (b c : Tree K S V W) :
    (leftRotate C x a y b c).entries = Tree.entries (BinTree.node x a (.node y b c)) := by
  simp [leftRotate]

/-- Rebalancing refreshes sums and rotates; the entries stay. -/
theorem entries_rebalance (dir : Direction) (uw up : Bool) (n : Node K S V W)
    (l r : Tree K S V W) :
    (rebalance C dir uw up n l r).1.entries = Tree.entries (BinTree.node n l r) := by
  have hn : (if uw then n.updateWeight C l r else n).toEntry = n.toEntry := by
    split <;> rfl
  unfold rebalance
  cases up with
  | false => simp [hn]
  | true =>
    simp only [if_true]
    split
    · split_ifs <;> simp [entries_rightRotate]
    · split_ifs <;> simp [entries_leftRotate]
    · simp [hn]

/-- `delete` takes the node out and keeps the entries of its two subtrees in order. -/
theorem delete_entries (x : Node K S V W) (l r : Tree K S V W) :
    (delete C x l r).1.toEntry = x.toEntry ∧
      (delete C x l r).2.entries = l.entries ++ r.entries := by
  fun_induction delete C x l r with
  | case1 x a y b c x' res sub hdel hnext ih =>
    -- the node went down the left of the lifted right child
    obtain ⟨hres, hsub⟩ := ih
    simp only [x'] at hres hsub
    simp only [hnext]
    refine ⟨hres, ?_⟩
    simp only [Tree.entries_node, hsub, Node.toEntry_updateWeight, List.append_assoc]
  | case2 x w a b c x' res sub hdel hnext ih =>
    obtain ⟨hres, hsub⟩ := ih
    simp only [x'] at hres hsub
    simp only [hnext]
    refine ⟨hres, ?_⟩
    simp only [Tree.entries_node, hsub, Node.toEntry_updateWeight, List.append_assoc,
      List.cons_append]
  | case3 x l r hleft hright =>
    -- `next_root` lifts no child, so both are vacant
    cases l with
    | nil =>
      cases r with
      | nil => simp [nextRoot]
      | node y b c => exact (hright y b c rfl rfl).elim
    | node w a b =>
      cases r with
      | nil => exact (hleft w a b rfl rfl).elim
      | node y b' c =>
        by_cases hp : w.priority < y.priority
        · exact (hright y b' c (by simp [nextRoot, hp]) rfl).elim
        · exact (hleft w a b (by simp [nextRoot, hp]) rfl).elim

end Config

/-! ## The order `next_node_dir` decides -/

/-- The direction `next_node_dir` gives for a key compared with a node's. -/
def dirOfOrdering : Ordering → Option Direction
  | .lt => some .left
  | .eq => none
  | .gt => some .right

section Order

variable {O : Type} [LinearOrder O] (rank : S × K → O)

/-- `next_node_dir` compares the ranks of the two treap keys. -/
def Compares (C : TreapMapConfig K S V W E) : Prop :=
  ∀ a b, C.nextNodeDir a b = dirOfOrdering (compare (rank a) (rank b))

/-- Entries in ascending rank. -/
def Sorted (l : List (Entry K S V W)) : Prop :=
  l.Pairwise fun a b => rank a.treapKey < rank b.treapKey

/-- The entries of rank below `x`. -/
def below (x : O) (l : List (Entry K S V W)) : List (Entry K S V W) :=
  l.filter fun e => rank e.treapKey < x

/-- The entries of rank above `x`. -/
def above (x : O) (l : List (Entry K S V W)) : List (Entry K S V W) :=
  l.filter fun e => x < rank e.treapKey

/-- The node of rank `x`, the first in order. -/
def Tree.findRank (x : O) (t : Tree K S V W) : Option (Node K S V W) :=
  t.toList.find? fun n => rank n.treapKey = x

variable {rank}

theorem sorted_node {n : Node K S V W} {l r : Tree K S V W} :
    Sorted rank (Tree.entries (BinTree.node n l r)) ↔
      Sorted rank l.entries ∧ Sorted rank r.entries ∧
        (∀ e ∈ l.entries, rank e.treapKey < rank n.treapKey) ∧
        (∀ e ∈ r.entries, rank n.treapKey < rank e.treapKey) ∧
        (∀ e ∈ l.entries, ∀ e' ∈ r.entries, rank e.treapKey < rank e'.treapKey) := by
  simp only [Sorted, Tree.entries_node, List.pairwise_append, List.pairwise_cons,
    List.mem_cons, Node.treapKey_toEntry]
  constructor
  · rintro ⟨hl, ⟨hn, hr⟩, hlr⟩
    exact ⟨hl, hr, fun e he => hlr e he _ (.inl rfl), hn,
      fun e he e' he' => hlr e he e' (.inr he')⟩
  · rintro ⟨hl, hr, hln, hnr, hlr⟩
    refine ⟨hl, ⟨hnr, hr⟩, fun e he e' he' => ?_⟩
    rcases he' with rfl | he'
    · exact hln e he
    · exact hlr e he e' he'

theorem below_eq_self {x : O} {l : List (Entry K S V W)}
    (h : ∀ e ∈ l, rank e.treapKey < x) : below rank x l = l :=
  List.filter_eq_self.mpr fun e he => decide_eq_true (h e he)

theorem below_eq_nil {x : O} {l : List (Entry K S V W)}
    (h : ∀ e ∈ l, x ≤ rank e.treapKey) : below rank x l = [] :=
  List.filter_eq_nil_iff.mpr fun e he => by simpa using h e he

theorem above_eq_self {x : O} {l : List (Entry K S V W)}
    (h : ∀ e ∈ l, x < rank e.treapKey) : above rank x l = l :=
  List.filter_eq_self.mpr fun e he => decide_eq_true (h e he)

theorem above_eq_nil {x : O} {l : List (Entry K S V W)}
    (h : ∀ e ∈ l, rank e.treapKey ≤ x) : above rank x l = [] :=
  List.filter_eq_nil_iff.mpr fun e he => by simpa using h e he

theorem below_append (x : O) (l l' : List (Entry K S V W)) :
    below rank x (l ++ l') = below rank x l ++ below rank x l' := List.filter_append ..

theorem above_append (x : O) (l l' : List (Entry K S V W)) :
    above rank x (l ++ l') = above rank x l ++ above rank x l' := List.filter_append ..

theorem below_cons (x : O) (e : Entry K S V W) (l : List (Entry K S V W)) :
    below rank x (e :: l) = if rank e.treapKey < x then e :: below rank x l else below rank x l := by
  simp only [below, List.filter_cons, decide_eq_true_eq]

theorem above_cons (x : O) (e : Entry K S V W) (l : List (Entry K S V W)) :
    above rank x (e :: l) = if x < rank e.treapKey then e :: above rank x l else above rank x l := by
  simp only [above, List.filter_cons, decide_eq_true_eq]

theorem findRank_eq_none {x : O} {t : Tree K S V W}
    (h : ∀ e ∈ t.entries, rank e.treapKey ≠ x) : t.findRank rank x = none := by
  refine List.find?_eq_none.mpr fun n hn => ?_
  simpa using h n.toEntry (List.mem_map_of_mem hn)

/-- Where the key is left of the node, the walk's split is the left subtree's. -/
theorem walk_left {x : O} {n : Node K S V W} {l r : Tree K S V W}
    (hs : Sorted rank (Tree.entries (BinTree.node n l r))) (hx : x < rank n.treapKey) :
    below rank x (Tree.entries (BinTree.node n l r)) = below rank x l.entries ∧
      above rank x (Tree.entries (BinTree.node n l r)) =
        above rank x l.entries ++ n.toEntry :: r.entries ∧
      Tree.findRank rank x (BinTree.node n l r) = Tree.findRank rank x l := by
  obtain ⟨-, -, -, hnr, -⟩ := sorted_node.mp hs
  -- the node and everything right of it rank above the key
  have hright : ∀ e ∈ n.toEntry :: r.entries, x < rank e.treapKey := by
    intro e he
    rcases List.mem_cons.mp he with rfl | he
    · exact hx
    · exact hx.trans (hnr e he)
  refine ⟨?_, ?_, ?_⟩
  · rw [Tree.entries_node, below_append, below_eq_nil fun e he => (hright e he).le,
      List.append_nil]
  · rw [Tree.entries_node, above_append, above_eq_self hright]
  · unfold Tree.findRank
    rw [BinTree.toList_node, List.find?_append]
    have hnone : (n :: r.toList).find? (fun m => rank m.treapKey = x) = none := by
      refine List.find?_eq_none.mpr fun m hm => ?_
      have := hright m.toEntry (by
        rcases List.mem_cons.mp hm with rfl | hm
        · exact List.mem_cons_self
        · exact List.mem_cons_of_mem _ (List.mem_map_of_mem hm))
      simpa using this.ne'
    rw [hnone, Option.or_none]

/-- Where the key is right of the node, the walk's split is the right subtree's. -/
theorem walk_right {x : O} {n : Node K S V W} {l r : Tree K S V W}
    (hs : Sorted rank (Tree.entries (BinTree.node n l r))) (hx : rank n.treapKey < x) :
    below rank x (Tree.entries (BinTree.node n l r)) =
        l.entries ++ n.toEntry :: below rank x r.entries ∧
      above rank x (Tree.entries (BinTree.node n l r)) = above rank x r.entries ∧
      Tree.findRank rank x (BinTree.node n l r) = Tree.findRank rank x r := by
  obtain ⟨-, -, hln, -, -⟩ := sorted_node.mp hs
  -- everything left of the node, and the node, rank below the key
  have hleft : ∀ e ∈ l.entries, rank e.treapKey < x := fun e he => (hln e he).trans hx
  refine ⟨?_, ?_, ?_⟩
  · rw [Tree.entries_node, below_append, below_cons, Node.treapKey_toEntry, if_pos hx,
      below_eq_self hleft]
  · rw [Tree.entries_node, above_append, above_cons, Node.treapKey_toEntry,
      if_neg (not_lt.mpr hx.le), above_eq_nil fun e he => (hleft e he).le, List.nil_append]
  · unfold Tree.findRank
    rw [BinTree.toList_node, List.find?_append, List.find?_cons_of_neg (by simpa using hx.ne)]
    have hnone : l.toList.find? (fun m => rank m.treapKey = x) = none :=
      findRank_eq_none fun e he => (hleft e he).ne
    rw [hnone, Option.none_or]

/-- Where the key is the node's, the node is the hit and its subtrees are the split. -/
theorem walk_hit {x : O} {n : Node K S V W} {l r : Tree K S V W}
    (hs : Sorted rank (Tree.entries (BinTree.node n l r))) (hx : rank n.treapKey = x) :
    below rank x (Tree.entries (BinTree.node n l r)) = l.entries ∧
      above rank x (Tree.entries (BinTree.node n l r)) = r.entries ∧
      Tree.findRank rank x (BinTree.node n l r) = some n := by
  obtain ⟨-, -, hln, hnr, -⟩ := sorted_node.mp hs
  subst hx
  refine ⟨?_, ?_, ?_⟩
  · rw [Tree.entries_node, below_append, below_cons, Node.treapKey_toEntry,
      if_neg (lt_irrefl _), below_eq_self hln, below_eq_nil fun e he => (hnr e he).le,
      List.append_nil]
  · rw [Tree.entries_node, above_append, above_cons, Node.treapKey_toEntry,
      if_neg (lt_irrefl _), above_eq_nil fun e he => (hln e he).le, above_eq_self hnr,
      List.nil_append]
  · unfold Tree.findRank
    rw [BinTree.toList_node, List.find?_append, List.find?_cons_of_pos (by simp)]
    have hnone : l.toList.find? (fun m => rank m.treapKey = rank n.treapKey) = none :=
      findRank_eq_none fun e he => (hln e he).ne
    rw [hnone, Option.none_or]

/-- A sorted tree is its entries below a rank, the node of that rank if any, and its entries
    above. -/
theorem entries_split (x : O) {t : Tree K S V W} (hs : Sorted rank t.entries) :
    t.entries = below rank x t.entries ++ ((t.findRank rank x).map Node.toEntry).toList ++
      above rank x t.entries := by
  induction t with
  | nil => rfl
  | node n l r ihl ihr =>
    obtain ⟨hl, hr, -, -, -⟩ := sorted_node.mp hs
    rcases lt_trichotomy x (rank n.treapKey) with hlt | heq | hgt
    · obtain ⟨hbelow, habove, hfind⟩ := walk_left hs hlt
      rw [hbelow, habove, hfind]
      conv_lhs => rw [Tree.entries_node, ihl hl]
      simp only [List.append_assoc]
    · obtain ⟨hbelow, habove, hfind⟩ := walk_hit hs heq.symm
      rw [hbelow, habove, hfind, Tree.entries_node]
      simp
    · obtain ⟨hbelow, habove, hfind⟩ := walk_right hs hgt
      rw [hbelow, habove, hfind]
      conv_lhs => rw [Tree.entries_node, ihr hr]
      simp only [List.append_assoc, List.cons_append]

end Order

/-! ## What `update_inner` does to the entries -/

/-- Whether an updater's result asks for a node to be inserted at a vacant slot. -/
def OpResult.isInsert {N Ret DeleteRet : Type} : OpResult N Ret DeleteRet → Bool
  | .insertOnVacant .. => true
  | _ => false

section Update

variable {σ Ret DeleteRet : Type} (C : TreapMapConfig K S V W E)
  (u : TreapNodeUpdate K S V W σ Ret DeleteRet)

/-- What the updater makes of the slot of its key, given the node there: its return, the entries
    that take the slot's place, and its state afterwards. -/
inductive SlotOutcome (st : σ) : Option (Node K S V W) → Ret → List (Entry K S V W) → σ → Prop
  | vacantInsert {n : Node K S V W} {ret : Ret} {st' : σ} :
      u.updateVacant st = (.insertOnVacant n ret, st') → SlotOutcome st none ret [n.toEntry] st'
  | vacantUpdated {uw : Bool} {ret : Ret} {st' : σ} :
      u.updateVacant st = (.updated uw ret, st') → SlotOutcome st none ret [] st'
  | vacantNoop {ret : Ret} {st' : σ} :
      u.updateVacant st = (.noop ret, st') → SlotOutcome st none ret [] st'
  | vacantDelete {dr : DeleteRet} {st' : σ} :
      u.updateVacant st = (.delete dr, st') → SlotOutcome st none (u.handleDelete none dr) [] st'
  | hitUpdated {n : Node K S V W} {uw : Bool} {ret : Ret} {n' : Node K S V W} {st' : σ} :
      u.updateHit st n = (.updated uw ret, n', st') → SlotOutcome st (some n) ret [n'.toEntry] st'
  | hitNoop {n : Node K S V W} {ret : Ret} {n' : Node K S V W} {st' : σ} :
      u.updateHit st n = (.noop ret, n', st') → SlotOutcome st (some n) ret [n'.toEntry] st'
  | hitDelete {n : Node K S V W} {dr : DeleteRet} {n' : Node K S V W} {st' : σ}
      (d : Node K S V W) :
      u.updateHit st n = (.delete dr, n', st') → d.toEntry = n'.toEntry →
        SlotOutcome st (some n) (u.handleDelete (some d) dr) [] st'

theorem entries_ite_updateWeight (b : Bool) (t : Tree K S V W) :
    (if b then Tree.updateWeight C t else t).entries = t.entries := by
  cases b <;> simp

variable {O : Type} [LinearOrder O] {rank : S × K → O}

/-- `update_inner` on a sorted tree changes the slot of its key and nothing else: the entries
    below the key, what the updater made of the slot, and the entries above it. -/
theorem updateInner_spec (hC : Compares rank C)
    (hhit : ∀ st n, (u.updateHit st n).1.isInsert = false) (st : σ) (t : Tree K S V W)
    (hs : Sorted rank t.entries) :
    ∃ mid, SlotOutcome u st (t.findRank rank (rank u.treapKey)) (updateInner C u st t).1.1 mid
        (updateInner C u st t).2.2 ∧
      (updateInner C u st t).2.1.entries =
        below rank (rank u.treapKey) t.entries ++ mid ++ above rank (rank u.treapKey) t.entries := by
  induction t generalizing st with
  | nil =>
    -- a vacant slot: what the updater puts there is the whole tree
    rcases hv : u.updateVacant st with ⟨res, st'⟩
    cases res with
    | insertOnVacant n ret =>
      refine ⟨[n.toEntry], ?_, ?_⟩ <;> simp only [updateInner, hv, processUpdateResult]
      · exact .vacantInsert hv
      · simp [below, above]
    | updated uw ret =>
      refine ⟨[], ?_, ?_⟩ <;> simp only [updateInner, hv, processUpdateResult]
      · exact .vacantUpdated hv
      · simp [entries_ite_updateWeight, below, above]
    | noop ret =>
      refine ⟨[], ?_, ?_⟩ <;> simp only [updateInner, hv, processUpdateResult]
      · exact .vacantNoop hv
      · simp [below, above]
    | delete dr =>
      refine ⟨[], ?_, ?_⟩ <;> simp only [updateInner, hv, processUpdateResult]
      · exact .vacantDelete hv
      · simp [below, above]
  | node n l r ihl ihr =>
    obtain ⟨hl, hr, -, -, -⟩ := sorted_node.mp hs
    have hdir := hC u.treapKey n.treapKey
    rcases lt_trichotomy (rank u.treapKey) (rank n.treapKey) with hlt | heq | hgt
    · -- the key is left of the node: the walk goes on in the left subtree
      rw [compare_lt_iff_lt.mpr hlt] at hdir
      obtain ⟨hbelow, habove, hfind⟩ := walk_left hs hlt
      obtain ⟨mid, hout, hentries⟩ := ihl st hl
      rcases hrec : updateInner C u st l with ⟨⟨ret, uw, up⟩, l', st'⟩
      rw [hrec] at hout hentries
      refine ⟨mid, ?_, ?_⟩ <;> simp only [updateInner, hdir, dirOfOrdering, hrec]
      · rw [hfind]
        exact hout
      · rw [entries_rebalance, Tree.entries_node, hentries, hbelow, habove]
        simp only [List.append_assoc]
    · -- the key is the node's: the updater runs on it
      rw [compare_eq_iff_eq.mpr heq] at hdir
      obtain ⟨hbelow, habove, hfind⟩ := walk_hit hs heq.symm
      rw [hbelow, habove, hfind]
      rcases hh : u.updateHit st n with ⟨res, n', st'⟩
      cases res with
      | insertOnVacant m ret =>
        have := hhit st n
        rw [hh] at this
        cases this
      | updated uw ret =>
        refine ⟨[n'.toEntry], ?_, ?_⟩ <;>
          simp only [updateInner, hdir, dirOfOrdering, hh, processUpdateResult]
        · exact .hitUpdated hh
        · simp [entries_ite_updateWeight]
      | noop ret =>
        refine ⟨[n'.toEntry], ?_, ?_⟩ <;>
          simp only [updateInner, hdir, dirOfOrdering, hh, processUpdateResult]
        · exact .hitNoop hh
        · simp
      | delete dr =>
        obtain ⟨hd, hdel⟩ := delete_entries C n' l r
        refine ⟨[], ?_, ?_⟩ <;>
          simp only [updateInner, hdir, dirOfOrdering, hh, processUpdateResult]
        · exact .hitDelete _ hh hd
        · simp [hdel]
    · -- the key is right of the node: the walk goes on in the right subtree
      rw [compare_gt_iff_gt.mpr hgt] at hdir
      obtain ⟨hbelow, habove, hfind⟩ := walk_right hs hgt
      obtain ⟨mid, hout, hentries⟩ := ihr st hr
      rcases hrec : updateInner C u st r with ⟨⟨ret, uw, up⟩, r', st'⟩
      rw [hrec] at hout hentries
      refine ⟨mid, ?_, ?_⟩ <;> simp only [updateInner, hdir, dirOfOrdering, hrec]
      · rw [hfind]
        exact hout
      · rw [entries_rebalance, Tree.entries_node, hentries, hbelow, habove]
        simp only [List.append_assoc, List.cons_append]

end Update

end Mazze.Treap
