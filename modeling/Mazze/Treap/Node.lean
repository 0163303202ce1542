import Mathlib
import Mazze.Lib.BinTree

/-!
# Treap nodes: `update_inner`, deletion and rotations

`treap-map/src/node.rs` and the updater interface of `update.rs`. A `TreapMap` keeps its
nodes in a treap: a search tree under the config's `next_node_dir` on `(sort_key, key)`, and
a max-heap on the random `priority`. Every change goes through `update_inner`, which walks
down to the key, lets an updater decide what happens at the slot it reaches, and on the way
back up refreshes `sum_weight` and, while the path carries `update_priority`, rotates a child
that outranks its parent.

`Option<Box<Node<C>>>` is a `BinTree` of `Node`s: a node's `left` and `right` are the
children of its tree node. The associated types of a `TreapMapConfig` are the type parameters
`K` (`SearchKey`), `S` (`SortKey`), `V` (`Value`), `W` (`Weight`) and `E` (`ExtMap`), and the
trait functions the config ties together (`next_node_dir`, the weight's `ConsoliableWeight`,
the ext map's `KeyMngTrait`) are the fields of one structure.
-/

set_option autoImplicit false

namespace Mazze.Treap

/-- `Direction`. -/
inductive Direction where
  | left
  | right
  deriving DecidableEq, Repr

/-- A `TreapMapConfig` with the `ConsoliableWeight` of its weight and the `KeyMngTrait` of its
    ext map. `accure` is `consolidate` for every weight of the repository, so it is not a
    field of its own. -/
structure TreapMapConfig (K S V W E : Type) where
  nextNodeDir : S × K → S × K → Option Direction
  empty : W
  consolidate : W → W → W
  viewUpdate : E → K → Option V → Option V → E
  len : E → Nat
  getSortKey : E → K → Option S
  makeSortKey : E → K → V → S
  /-- `ExtMap::default()`. -/
  default : E

/-- The fields of a `Node` a caller of `TreapMap::update` may write. -/
structure Entry (K S V W : Type) where
  key : K
  value : V
  sortKey : S
  weight : W
  deriving DecidableEq, Repr

/-- `Node`, without its children. -/
structure Node (K S V W : Type) extends Entry K S V W where
  sumWeight : W
  priority : UInt64
  deriving DecidableEq, Repr

/-- `Option<Box<Node<C>>>`. -/
abbrev Tree (K S V W : Type) := BinTree (Node K S V W)

variable {K S V W E : Type}

/-- `Node::new`: no children, so the sum is the node's own weight. -/
def Node.new (key : K) (value : V) (sortKey : S) (weight : W) (priority : UInt64) :
    Node K S V W :=
  ⟨⟨key, value, sortKey, weight⟩, weight, priority⟩

/-- `(sort_key, key)`, what `next_node_dir` compares. -/
def Node.treapKey (n : Node K S V W) : S × K := (n.sortKey, n.key)

section Config

variable (C : TreapMapConfig K S V W E)

/-- One `accure` of `update_weight`: a vacant child adds nothing. -/
def accureChild (s : W) : Tree K S V W → W
  | .nil => s
  | .node x _ _ => C.consolidate s x.sumWeight

/-- `update_weight`: the node's weight, then the left sum, then the right sum. -/
def Node.updateWeight (n : Node K S V W) (l r : Tree K S V W) : Node K S V W :=
  { n with sumWeight := accureChild C (accureChild C n.weight l) r }

/-- `maybe_node.update_weight()` on whatever a slot holds. -/
def Tree.updateWeight : Tree K S V W → Tree K S V W
  | .nil => .nil
  | .node n l r => .node (n.updateWeight C l r) l r

/-- `right_rotate` on `Y` with left child `X`: `Y(X(A, B), C)` becomes `X(A, Y(B, C))`, the
    sum of `Y` refreshed before the sum of `X`. Taking `X`'s parts as arguments is the
    `unwrap` of the source: the callers rotate only where the left child is a node. -/
def rightRotate (y x : Node K S V W) (a b c : Tree K S V W) : Tree K S V W :=
  let y := y.updateWeight C b c
  .node (x.updateWeight C a (.node y b c)) a (.node y b c)

/-- `left_rotate` on `X` with right child `Y`: `X(A, Y(B, C))` becomes `Y(X(A, B), C)`. -/
def leftRotate (x : Node K S V W) (a : Tree K S V W) (y : Node K S V W) (b c : Tree K S V W) :
    Tree K S V W :=
  let x := x.updateWeight C a b
  .node (y.updateWeight C (.node x a b) c) (.node x a b) c

/-- The `next_root` of `delete`: the child that is lifted above the node, `none` at a leaf. -/
def nextRoot : Tree K S V W → Tree K S V W → Option Direction
  | .nil, .nil => none
  | .nil, .node .. => some .right
  | .node .., .nil => some .left
  | .node w .., .node y .. => some (if w.priority < y.priority then .right else .left)

/-- `delete`: rotate the node down below the child of higher priority until it is a leaf,
    then take it. Returns the deleted node and what the slot holds afterwards. -/
def delete (x : Node K S V W) (l r : Tree K S V W) : Node K S V W × Tree K S V W :=
  match nextRoot l r, l, r with
  | some .right, a, .node y b c =>
    -- `left_rotate`, then delete from the new left child, then `update_weight` at the top
    let x := x.updateWeight C a b
    let y := y.updateWeight C (.node x a b) c
    let (res, sub) := delete x a b
    (res, .node (y.updateWeight C sub c) sub c)
  | some .left, .node w a b, c =>
    let x := x.updateWeight C b c
    let w := w.updateWeight C a (.node x b c)
    let (res, sub) := delete x b c
    (res, .node (w.updateWeight C a sub) a sub)
  -- both children vacant: `mem::take` the node (the other shapes are not `next_root`'s)
  | _, _, _ => (x, .nil)
termination_by l.size + r.size
decreasing_by all_goals simp only [BinTree.size_node]; omega

/-- `Node::get`. -/
def Tree.get (sk : S) (k : K) : Tree K S V W → Option V
  | .nil => none
  | .node n l r =>
    match C.nextNodeDir (sk, k) n.treapKey with
    | none => some n.value
    | some .left => Tree.get sk k l
    | some .right => Tree.get sk k r

end Config

/-! ## The updater interface -/

/-- `OpResult`: what an updater asks `update_inner` to do at the slot it reached. -/
inductive OpResult (N Ret DeleteRet : Type) where
  | insertOnVacant (insert : N) (ret : Ret)
  | updated (updateWeight : Bool) (ret : Ret)
  | noop (ret : Ret)
  | delete (deleteRet : DeleteRet)

/-- `TreapNodeUpdate`. The updater owns `&mut` state (the ext map, and for `ApplyOp` the
    random source), which is the state `σ` threaded through `update_inner`. `update_node` is
    split by the shape of `maybe_node`: at a vacant slot, and at the node whose key it is,
    which it may write. -/
structure TreapNodeUpdate (K S V W σ Ret DeleteRet : Type) where
  treapKey : S × K
  updateVacant : σ → OpResult (Node K S V W) Ret DeleteRet × σ
  updateHit : σ → Node K S V W → OpResult (Node K S V W) Ret DeleteRet × Node K S V W × σ
  handleDelete : Option (Node K S V W) → DeleteRet → Ret

section Update

variable (C : TreapMapConfig K S V W E) {σ Ret DeleteRet : Type}
  (u : TreapNodeUpdate K S V W σ Ret DeleteRet)

/-- `process_update_result` on the slot's content `t`. The flags are `update_weight` and
    `update_priority`. -/
def processUpdateResult (t : Tree K S V W) :
    OpResult (Node K S V W) Ret DeleteRet → (Ret × Bool × Bool) × Tree K S V W
  | .noop ret => ((ret, false, false), t)
  | .updated uw ret => ((ret, uw, false), t)
  -- the boxed node comes from `Node::new`, without children
  | .insertOnVacant n ret => ((ret, true, true), .node n .nil .nil)
  | .delete dr =>
    match t with
    | .nil => ((u.handleDelete none dr, true, true), .nil)
    | .node n l r =>
      let (d, t) := delete C n l r
      ((u.handleDelete (some d) dr, true, true), t)

/-- The end of `update_inner` at a node the walk went through towards `dir`: refresh the sum
    if asked, then, while `update_priority` holds, rotate the child on the path above the
    node if it outranks it, or stop the rotations. -/
def rebalance (dir : Direction) (uw up : Bool) (n : Node K S V W) (l r : Tree K S V W) :
    Tree K S V W × Bool :=
  let n := if uw then n.updateWeight C l r else n
  if up then
    match dir, l, r with
    | .left, .node x a b, _ =>
      if n.priority < x.priority then (rightRotate C n x a b r, true) else (.node n l r, false)
    | .right, _, .node y b c =>
      if n.priority < y.priority then (leftRotate C n l y b c, true) else (.node n l r, false)
    | _, _, _ => (.node n l r, false)
  else (.node n l r, false)

/-- `update_inner`: the result with the flags `(update_weight, update_priority)`, the new
    slot content, and the updater's state afterwards. -/
def updateInner : σ → Tree K S V W → (Ret × Bool × Bool) × Tree K S V W × σ
  | st, .nil =>
    let (res, st) := u.updateVacant st
    let (out, t) := processUpdateResult C u .nil res
    (out, if out.2.1 then Tree.updateWeight C t else t, st)
  | st, .node n l r =>
    match C.nextNodeDir u.treapKey n.treapKey with
    | none =>
      let (res, n, st) := u.updateHit st n
      let (out, t) := processUpdateResult C u (.node n l r) res
      (out, if out.2.1 then Tree.updateWeight C t else t, st)
    | some .left =>
      let ((ret, uw, up), l, st) := updateInner st l
      let (t, up) := rebalance C .left uw up n l r
      ((ret, uw, up), t, st)
    | some .right =>
      let ((ret, uw, up), r, st) := updateInner st r
      let (t, up) := rebalance C .right uw up n l r
      ((ret, uw, up), t, st)

end Update

end Mazze.Treap
