import Mazze.Treap.Node

/-!
# Weight search down a treap

`treap-map/src/search.rs`. `accumulate_weight_search` walks from the root towards one leaf.
At each node the caller's function sees the weight of everything to the node's left (the
weight accumulated before the subtree, consolidated with the left child's sum) and the node,
and says where to go. The walk records the last acceptable node as a candidate and whether it
has only ever turned left or only right, which decides the answer at a vacant slot.

The search is always run with `extract` the identity (`TreapMap::search`), so it is not a
parameter here.
-/

set_option autoImplicit false

namespace Mazze.Treap

/-- `SearchDirection`. -/
inductive SearchDirection (W : Type) where
  | abort
  | left
  | stop
  | right (w : W)
  | leftOrStop
  | rightOrStop (w : W)
  deriving DecidableEq, Repr

/-- `SearchResult`. -/
inductive SearchResult (K S V W : Type) where
  | abort
  | leftMost
  | found (baseWeight : W) (node : Node K S V W)
  | rightMost (w : W)
  deriving DecidableEq, Repr

variable {K S V W E : Type}

/-- `SearchResult::maybe_value`. -/
def SearchResult.maybeValue : SearchResult K S V W → Option V
  | .found _ node => some node.value
  | _ => none

/-- The answer at a vacant slot: the candidate, else the edge the walk kept to. The right edge
    carries the last `Right` weight, which is there whenever the walk only turned right. -/
def searchEnd (candidate : Option (SearchResult K S V W)) (allLeft allRight : Bool)
    (rightWeight : Option W) : SearchResult K S V W :=
  match candidate with
  | some result => result
  | none =>
    if allLeft then .leftMost
    else if allRight then
      match rightWeight with
      | some w => .rightMost w
      | none => .abort
    else .abort

variable (C : TreapMapConfig K S V W E)

/-- The loop of `accumulate_weight_search` at `node`, whose children are `l` and `r`, with the
    weight `base` accumulated left of its subtree. -/
def searchFrom (f : W → Node K S V W → SearchDirection W) (node : Node K S V W)
    (l r : Tree K S V W) (base : W) (candidate : Option (SearchResult K S V W))
    (allLeft allRight : Bool) : SearchResult K S V W :=
  let leftWeight := accureChild C base l
  let found := SearchResult.found leftWeight node
  match f leftWeight node with
  | .abort => candidate.getD .abort
  | .stop => found
  | .left =>
    match l with
    | .node n l' r' => searchFrom f n l' r' base candidate allLeft false
    | .nil => searchEnd candidate allLeft false none
  | .leftOrStop =>
    match l with
    | .node n l' r' => searchFrom f n l' r' base (some found) allLeft false
    | .nil => searchEnd (some found) allLeft false none
  | .right w =>
    match r with
    | .node n l' r' => searchFrom f n l' r' w candidate false allRight
    | .nil => searchEnd candidate false allRight (some w)
  | .rightOrStop w =>
    match r with
    | .node n l' r' => searchFrom f n l' r' w (some found) false allRight
    | .nil => searchEnd (some found) false allRight (some w)
termination_by l.size + r.size
decreasing_by all_goals simp only [BinTree.size_node]; omega

/-- `accumulate_weight_search` from a root node. -/
def accumulateWeightSearch (f : W → Node K S V W → SearchDirection W) (root : Node K S V W)
    (l r : Tree K S V W) : SearchResult K S V W :=
  searchFrom C f root l r C.empty none true true

/-- `searchFrom` with a callback that runs in a monad: a callback that may panic runs in
    `Option`, and the walk stops where it does. -/
def searchFromM {m : Type → Type} [Monad m] (f : W → Node K S V W → m (SearchDirection W))
    (node : Node K S V W) (l r : Tree K S V W) (base : W) (candidate : Option (SearchResult K S V W))
    (allLeft allRight : Bool) : m (SearchResult K S V W) := do
  let leftWeight := accureChild C base l
  let found := SearchResult.found leftWeight node
  match ← f leftWeight node with
  | .abort => pure (candidate.getD .abort)
  | .stop => pure found
  | .left =>
    match l with
    | .node n l' r' => searchFromM f n l' r' base candidate allLeft false
    | .nil => pure (searchEnd candidate allLeft false none)
  | .leftOrStop =>
    match l with
    | .node n l' r' => searchFromM f n l' r' base (some found) allLeft false
    | .nil => pure (searchEnd (some found) allLeft false none)
  | .right w =>
    match r with
    | .node n l' r' => searchFromM f n l' r' w candidate false allRight
    | .nil => pure (searchEnd candidate false allRight (some w))
  | .rightOrStop w =>
    match r with
    | .node n l' r' => searchFromM f n l' r' w (some found) false allRight
    | .nil => pure (searchEnd (some found) false allRight (some w))
termination_by l.size + r.size
decreasing_by all_goals simp only [BinTree.size_node]; omega

/-- `accumulate_weight_search` from a root node, with a callback that runs in a monad. -/
def accumulateWeightSearchM {m : Type → Type} [Monad m]
    (f : W → Node K S V W → m (SearchDirection W)) (root : Node K S V W) (l r : Tree K S V W) :
    m (SearchResult K S V W) :=
  searchFromM C f root l r C.empty none true true

end Mazze.Treap
