import Mazze.Lib.Update
import Mazze.Sync.Graph

/-!
# What each write of the synchronization graph changes

Every write of `Sync.Graph` rewrites one field of one node, one entry of a by-hash table,
or the old-era frontier. This module gives each write its frame lemmas, and then the
effect of each loop of the model that is a sequence of such writes. A node field reads
through `Function.update` (`update_parent` and its siblings). A field the write leaves
alone collapses back to the old one (`ite_parent` and its siblings). A fold of writes to
the nodes of a list becomes one pointwise rewrite (`foldl_modifyNode`), which
`Function.foldl_update_apply` then evaluates.
-/

set_option autoImplicit false

namespace Mazze.Sync

/-! ## 1. Reading a node through an update -/

section Node

variable (a : Nat → SynchronizationGraphNode) (i j : Nat) (n : SynchronizationGraphNode)

@[simp] theorem update_blockHeader :
    (Function.update a i n j).blockHeader = if j = i then n.blockHeader else (a j).blockHeader := by
  rw [Function.update_apply]; split <;> rfl

@[simp] theorem update_graphStatus :
    (Function.update a i n j).graphStatus = if j = i then n.graphStatus else (a j).graphStatus := by
  rw [Function.update_apply]; split <;> rfl

@[simp] theorem update_blockReady :
    (Function.update a i n j).blockReady = if j = i then n.blockReady else (a j).blockReady := by
  rw [Function.update_apply]; split <;> rfl

@[simp] theorem update_parentReclaimed :
    (Function.update a i n j).parentReclaimed =
      if j = i then n.parentReclaimed else (a j).parentReclaimed := by
  rw [Function.update_apply]; split <;> rfl

@[simp] theorem update_parent :
    (Function.update a i n j).parent = if j = i then n.parent else (a j).parent := by
  rw [Function.update_apply]; split <;> rfl

@[simp] theorem update_children :
    (Function.update a i n j).children = if j = i then n.children else (a j).children := by
  rw [Function.update_apply]; split <;> rfl

@[simp] theorem update_referees :
    (Function.update a i n j).referees = if j = i then n.referees else (a j).referees := by
  rw [Function.update_apply]; split <;> rfl

@[simp] theorem update_referrers :
    (Function.update a i n j).referrers = if j = i then n.referrers else (a j).referrers := by
  rw [Function.update_apply]; split <;> rfl

@[simp] theorem ite_blockHeader :
    (if j = i then (a i).blockHeader else (a j).blockHeader) = (a j).blockHeader := by
  split <;> simp_all

@[simp] theorem ite_graphStatus :
    (if j = i then (a i).graphStatus else (a j).graphStatus) = (a j).graphStatus := by
  split <;> simp_all

@[simp] theorem ite_blockReady :
    (if j = i then (a i).blockReady else (a j).blockReady) = (a j).blockReady := by
  split <;> simp_all

@[simp] theorem ite_parentReclaimed :
    (if j = i then (a i).parentReclaimed else (a j).parentReclaimed) = (a j).parentReclaimed := by
  split <;> simp_all

@[simp] theorem ite_parent :
    (if j = i then (a i).parent else (a j).parent) = (a j).parent := by
  split <;> simp_all

@[simp] theorem ite_children :
    (if j = i then (a i).children else (a j).children) = (a j).children := by
  split <;> simp_all

@[simp] theorem ite_referees :
    (if j = i then (a i).referees else (a j).referees) = (a j).referees := by
  split <;> simp_all

@[simp] theorem ite_referrers :
    (if j = i then (a i).referrers else (a j).referrers) = (a j).referrers := by
  split <;> simp_all

end Node

/-! ## 2. The writes, as updates -/

namespace SynchronizationGraphInner

variable (s : SynchronizationGraphInner)

@[simp] theorem modifyNode_eq (i : Nat) (f : SynchronizationGraphNode → SynchronizationGraphNode) :
    s.modifyNode i f = { s with arena := Function.update s.arena i (f (s.arena i)) } := rfl

@[simp] theorem setGraphStatus_eq (i : Nat) (status : GraphStatus) :
    s.setGraphStatus i status =
      { s with arena := Function.update s.arena i { s.arena i with graphStatus := status } } := rfl

@[simp] theorem setBlockReady_eq (i : Nat) (b : Bool) :
    s.setBlockReady i b =
      { s with arena := Function.update s.arena i { s.arena i with blockReady := b } } := rfl

@[simp] theorem setParentReclaimed_eq (i : Nat) :
    s.setParentReclaimed i =
      { s with arena := Function.update s.arena i { s.arena i with parentReclaimed := true } } := rfl

@[simp] theorem setParent_eq (i p : Nat) :
    s.setParent i p = { s with arena := Function.update s.arena i { s.arena i with parent := p } } :=
  rfl

@[simp] theorem modifyChildren_eq (i : Nat) (f : List Nat → List Nat) :
    s.modifyChildren i f =
      { s with arena := Function.update s.arena i { s.arena i with children := f (s.arena i).children } } :=
  rfl

@[simp] theorem modifyReferees_eq (i : Nat) (f : List Nat → List Nat) :
    s.modifyReferees i f =
      { s with arena := Function.update s.arena i { s.arena i with referees := f (s.arena i).referees } } :=
  rfl

@[simp] theorem modifyReferrers_eq (i : Nat) (f : List Nat → List Nat) :
    s.modifyReferrers i f =
      { s with arena :=
          Function.update s.arena i { s.arena i with referrers := f (s.arena i).referrers } } :=
  rfl

@[simp] theorem modifyChildrenByHash_eq (h : Nat) (f : List Nat → List Nat) :
    s.modifyChildrenByHash h f =
      { s with childrenByHash := Function.update s.childrenByHash h (f (s.childrenByHash h)) } := rfl

@[simp] theorem modifyReferrersByHash_eq (h : Nat) (f : List Nat → List Nat) :
    s.modifyReferrersByHash h f =
      { s with referrersByHash := Function.update s.referrersByHash h (f (s.referrersByHash h)) } :=
  rfl

@[simp] theorem pushOldEraBlocksFrontier_eq (i : Nat) :
    s.pushOldEraBlocksFrontier i =
      { s with oldEraBlocksFrontier := s.oldEraBlocksFrontier ++ [i],
               oldEraBlocksFrontierSet := Insert.insert i s.oldEraBlocksFrontierSet } := rfl

@[simp] theorem insertNode_eq (me : Nat) (node : SynchronizationGraphNode) :
    s.insertNode me node =
      { s with keys := Insert.insert me s.keys, arena := Function.update s.arena me node,
               hashToArenaIndices :=
                 Function.update s.hashToArenaIndices node.blockHeader.hash (some me) } := rfl

/-! ## 3. Folds of node writes -/

/-- A fold of writes, one node each, is a fold of updates of the arena alone. -/
theorem foldl_modifyNode (F : Nat → SynchronizationGraphNode → SynchronizationGraphNode) :
    ∀ (l : List Nat) (s : SynchronizationGraphInner),
      l.foldl (fun s i => s.modifyNode i (F i)) s =
        { s with arena := l.foldl (fun a i => Function.update a i (F i (a i))) s.arena }
  | [], _ => rfl
  | i :: l, s => by
    rw [List.foldl_cons, foldl_modifyNode F l]
    rfl

/-- An idempotent write, folded over a list, lands once on each node of the list. -/
theorem foldl_modifyNode_of_idem (F : Nat → SynchronizationGraphNode → SynchronizationGraphNode)
    (hF : ∀ i n, F i (F i n) = F i n) (l : List Nat) :
    l.foldl (fun s i => s.modifyNode i (F i)) s =
      { s with arena := fun j => if j ∈ l then F j (s.arena j) else s.arena j } := by
  rw [foldl_modifyNode]
  congr 1
  funext j
  exact Function.foldl_update_apply_of_idem F hF l s.arena j

/-- `for child in l { arena[child].parent = p }`. -/
theorem foldl_setParent (l : List Nat) (p : Nat) :
    l.foldl (fun (s : SynchronizationGraphInner) child => s.setParent child p) s =
      { s with arena := fun j => if j ∈ l then { s.arena j with parent := p } else s.arena j } :=
  foldl_modifyNode_of_idem s (fun _ n => { n with parent := p }) (fun _ _ => rfl) l

/-- `for x in l { arena[x].referrers.retain(|&y| y != index) }`. -/
theorem foldl_retainReferrers (l : List Nat) (index : Nat) :
    l.foldl (fun (s : SynchronizationGraphInner) x =>
        s.modifyReferrers x (·.filter (· != index))) s =
      { s with arena := fun j => if j ∈ l then
          { s.arena j with referrers := (s.arena j).referrers.filter (· != index) } else s.arena j } :=
  foldl_modifyNode_of_idem s (fun _ n => { n with referrers := n.referrers.filter (· != index) })
    (fun _ n => by simp [List.filter_filter]) l

/-- `for x in l { arena[x].referees.retain(|&y| y != index) }`. -/
theorem foldl_retainReferees (l : List Nat) (index : Nat) :
    l.foldl (fun (s : SynchronizationGraphInner) x =>
        s.modifyReferees x (·.filter (· != index))) s =
      { s with arena := fun j => if j ∈ l then
          { s.arena j with referees := (s.arena j).referees.filter (· != index) } else s.arena j } :=
  foldl_modifyNode_of_idem s (fun _ n => { n with referees := n.referees.filter (· != index) })
    (fun _ n => by simp [List.filter_filter]) l

/-- `for h in l { referrers_by_hash[h].retain(|&y| y != index) }`. -/
theorem foldl_retainReferrersByHash (l : List Nat) (index : Nat) :
    l.foldl (fun (s : SynchronizationGraphInner) h =>
        s.modifyReferrersByHash h (·.filter (· != index))) s =
      { s with referrersByHash := fun h => if h ∈ l then
          (s.referrersByHash h).filter (· != index) else s.referrersByHash h } := by
  have hfold : ∀ (l : List Nat) (s : SynchronizationGraphInner),
      l.foldl (fun (s : SynchronizationGraphInner) h =>
        s.modifyReferrersByHash h (·.filter (· != index))) s =
      { s with referrersByHash := l.foldl (fun t h => Function.update t h
          ((t h).filter (· != index))) s.referrersByHash } := by
    intro l
    induction l with
    | nil => intro s; rfl
    | cons h l ih => intro s; rw [List.foldl_cons, ih]; rfl
  rw [hfold]
  congr 1
  funext h
  exact Function.foldl_update_apply_of_idem (fun _ x => x.filter (· != index))
    (fun _ x => by simp [List.filter_filter]) l s.referrersByHash h

/-- `for x in l { arena[x].referees.push(me) }`: each node gains `me` once per occurrence. -/
theorem foldl_pushReferees (l : List Nat) (me : Nat) :
    l.foldl (fun (s : SynchronizationGraphInner) x => s.modifyReferees x (· ++ [me])) s =
      { s with arena := fun j =>
          { s.arena j with referees := (s.arena j).referees ++ List.replicate (l.count j) me } } := by
  rw [show (fun (s : SynchronizationGraphInner) x => s.modifyReferees x (· ++ [me])) =
      fun s x => s.modifyNode x ((fun _ n => { n with referees := n.referees ++ [me] }) x) from rfl,
    foldl_modifyNode]
  congr 1
  funext j
  refine (Function.foldl_update_apply (fun _ n => { n with referees := n.referees ++ [me] })
    l s.arena j).trans ?_
  generalize l.count j = k
  induction k with
  | zero => simp
  | succ k ih =>
    rw [Function.iterate_succ_apply', ih, List.replicate_succ', List.append_assoc]

end SynchronizationGraphInner

end Mazze.Sync
