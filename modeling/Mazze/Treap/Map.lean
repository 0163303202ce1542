import Mathlib
import Mazze.Treap.Search

/-!
# `TreapMap`: the three updaters and the map's operations

`treap-map/src/update.rs` and `map.rs`. `insert`, `remove` and `update` each hand
`update_inner` an updater: `InsertOp` overwrites or fills the slot of a key, `RemoveOp` asks
for the slot's node to be deleted, and `ApplyOp` runs the caller's closures, which may ask for
the node to be deleted or, after changing its key, deleted and inserted again. Each updater
tells the ext map what changed with `view_update(key, new value, old value)`.

The random source is a stream of `u64`s: `next_u64` is its head, and what is left is its tail.
-/

set_option autoImplicit false

namespace Mazze.Treap

variable {K S V W E : Type}

/-- `ApplyOpOutcome`. -/
structure ApplyOpOutcome (T : Type) where
  out : T
  updateWeight : Bool
  updateKey : Bool
  deleteItem : Bool
  deriving DecidableEq, Repr

/-- `TreapMap`: the root slot, the ext map, and the random source of priorities. -/
structure TreapMap (K S V W E : Type) where
  root : Tree K S V W
  extMap : E
  rng : Stream' UInt64

variable (C : TreapMapConfig K S V W E)

/-! ## The updaters -/

/-- `InsertOp` for `node`. A hit overwrites value and weight, not the sort key. It never asks
    for a deletion, so its `handle_delete` (`unreachable!()`) is never run. -/
def InsertOp [DecidableEq W] (node : Node K S V W) : TreapNodeUpdate K S V W E (Option V) Unit where
  treapKey := node.treapKey
  updateVacant ext := (.insertOnVacant node none, C.viewUpdate ext node.key (some node.value) none)
  updateHit ext n :=
    (.updated (n.weight != node.weight) (some n.value),
      { n with value := node.value, weight := node.weight },
      C.viewUpdate ext node.key (some node.value) (some n.value))
  handleDelete _ _ := none

/-- `RemoveOp` for `key`: delete whatever the slot holds. -/
def RemoveOp (key : S × K) : TreapNodeUpdate K S V W E (Option V) Unit where
  treapKey := key
  updateVacant ext := (.delete (), C.viewUpdate ext key.2 none none)
  updateHit ext n := (.delete (), n, C.viewUpdate ext key.2 none (some n.value))
  handleDelete deleted _ := deleted.map fun n => n.value

/-- What `ApplyOp` holds by `&mut`: the ext map and the random source. `panicked` records
    that the `assert!` on the key of an inserted node failed, a panic that ends the call. -/
structure ApplyState (E : Type) where
  extMap : E
  rng : Stream' UInt64
  panicked : Bool

/-- `ApplyOp` for `key`, with the caller's `update` (on the fields it may write) and `insert`
    (from the random source). -/
def ApplyOp {T Err : Type} (key : S × K)
    (update : Entry K S V W → Entry K S V W × Except Err (ApplyOpOutcome T))
    (insert : Stream' UInt64 → Except Err (Node K S V W × T) × Stream' UInt64) :
    TreapNodeUpdate K S V W (ApplyState E)
      (Except Err (T × Option (Node K S V W))) (T × Bool) where
  treapKey := key
  updateVacant st :=
    match insert st.rng with
    | (.error err, rng) => (.noop (.error err), { st with rng := rng })
    | (.ok (node, ret), rng) =>
      let st := { st with extMap := C.viewUpdate st.extMap key.2 (some node.value) none, rng := rng }
      -- the `assert!` on the node's key: a failure panics, and the tree left behind is never read
      if (C.nextNodeDir key node.treapKey).isNone then (.insertOnVacant node (.ok (ret, none)), st)
      else (.noop (.ok (ret, none)), { st with panicked := true })
  updateHit st n :=
    let oldValue := n.value
    let (e, res) := update n.toEntry
    -- the closure writes the node even when it fails
    let n := { n with toEntry := e }
    match res with
    | .error err => (.noop (.error err), n, st)
    | .ok o =>
      let newValue := if o.deleteItem then none else some n.value
      let st := { st with extMap := C.viewUpdate st.extMap key.2 newValue (some oldValue) }
      if o.updateKey || o.deleteItem then (.delete (o.out, o.deleteItem), n, st)
      else (.updated o.updateWeight (.ok (o.out, none)), n, st)
  -- a node to insert again is the deleted one, which a hit always has
  handleDelete deleted dr := .ok (dr.1, if dr.2 then none else deleted)

/-! ## The map -/

/-- `TreapMap::new`, from a random source. -/
def TreapMap.new (rng : Stream' UInt64) : TreapMap K S V W E := ⟨.nil, C.default, rng⟩

/-- `len`: what the ext map counts. -/
def TreapMap.len (m : TreapMap K S V W E) : Nat := C.len m.extMap

/-- `is_empty`. -/
def TreapMap.isEmpty (m : TreapMap K S V W E) : Bool := C.len m.extMap == 0

/-- `get`: the sort key from the ext map, then `Node::get`. -/
def TreapMap.get (m : TreapMap K S V W E) (key : K) : Option V :=
  (C.getSortKey m.extMap key).bind fun sk => Tree.get C sk key m.root

/-- `contains_key`. -/
def TreapMap.containsKey (m : TreapMap K S V W E) (key : K) : Bool := (m.get C key).isSome

/-- `insert`: a new node with the next priority, through `InsertOp`. -/
def TreapMap.insert [DecidableEq W] (m : TreapMap K S V W E) (key : K) (value : V) (weight : W) :
    Option V × TreapMap K S V W E :=
  let sortKey := C.makeSortKey m.extMap key value
  let node := Node.new key value sortKey weight m.rng.head
  let ((result, _, _), root, extMap) := updateInner C (InsertOp C node) m.extMap m.root
  (result, ⟨root, extMap, m.rng.tail⟩)

/-- `remove`: nothing when the ext map has no sort key for `key`, else `RemoveOp`. -/
def TreapMap.remove (m : TreapMap K S V W E) (key : K) : Option V × TreapMap K S V W E :=
  match C.getSortKey m.extMap key with
  | none => (none, m)
  | some sortKey =>
    let ((result, _, _), root, extMap) := updateInner C (RemoveOp C (sortKey, key)) m.extMap m.root
    (result, { m with root := root, extMap := extMap })

/-- `update`. Without a sort key `insert` runs and its node goes in through `TreapMap::insert`,
    which keeps only key, value and weight. Otherwise `ApplyOp` runs, and a node it returns
    (the deleted one when the key changed) goes in again the same way. `none` is a panic. -/
def TreapMap.update [DecidableEq W] {T Err : Type} (m : TreapMap K S V W E) (key : K)
    (update : Entry K S V W → Entry K S V W × Except Err (ApplyOpOutcome T))
    (insert : Stream' UInt64 → Except Err (Node K S V W × T) × Stream' UInt64) :
    Option (Except Err T × TreapMap K S V W E) :=
  match C.getSortKey m.extMap key with
  | none =>
    match insert m.rng with
    | (.ok (node, ret), rng) =>
      some (.ok ret, ({ m with rng := rng }.insert C node.key node.value node.weight).2)
    | (.error err, rng) => some (.error err, { m with rng := rng })
  | some sortKey =>
    let ((res, _, _), root, st) :=
      updateInner C (ApplyOp C (sortKey, key) update insert) ⟨m.extMap, m.rng, false⟩ m.root
    if st.panicked then none
    else
      let m : TreapMap K S V W E := ⟨root, st.extMap, st.rng⟩
      match res with
      | .error err => some (.error err, m)
      | .ok (ret, none) => some (.ok ret, m)
      | .ok (ret, some node) => some (.ok ret, (m.insert C node.key node.value node.weight).2)

/-- `sum_weight`. -/
def TreapMap.sumWeight (m : TreapMap K S V W E) : W :=
  match m.root with
  | .nil => C.empty
  | .node n _ _ => n.sumWeight

/-- `search`: `None` on an empty map. -/
def TreapMap.search (m : TreapMap K S V W E) (f : W → Node K S V W → SearchDirection W) :
    Option (SearchResult K S V W) :=
  match m.root with
  | .nil => none
  | .node n l r => some (accumulateWeightSearch C f n l r)

/-- `search` with a callback that runs in a monad. -/
def TreapMap.searchM {m : Type → Type} [Monad m] (tm : TreapMap K S V W E)
    (f : W → Node K S V W → m (SearchDirection W)) : m (Option (SearchResult K S V W)) :=
  match tm.root with
  | .nil => pure none
  | .node n l r => some <$> accumulateWeightSearchM C f n l r

/-- `search_no_weight`: a walk whose callback reads no weight. The weights the walk carries
    along are never read, so a step to the right carries `empty`. -/
def TreapMap.searchNoWeight (m : TreapMap K S V W E) (f : Node K S V W → SearchDirection Unit) :
    Option (SearchResult K S V W) :=
  m.search C fun _ node =>
    match f node with
    | .abort => .abort
    | .left => .left
    | .stop => .stop
    | .right () => .right C.empty
    | .leftOrStop => .leftOrStop
    | .rightOrStop () => .rightOrStop C.empty

/-- `get_by_weight`: the node whose weight interval, in key order, holds `weight`. -/
def TreapMap.getByWeight [LT W] [DecidableLT W] (m : TreapMap K S V W E) (weight : W) :
    Option V :=
  (m.search C fun base mid =>
    if weight < base then .left
    else
      let rightBase := C.consolidate base mid.weight
      if weight < rightBase then .stop else .right rightBase).bind SearchResult.maybeValue

/-! ## In-order iteration -/

/-- `Iter`: the stack of nodes still to yield, top first, each with the right subtree that is
    pushed when it is yielded. -/
abbrev Iter (K S V W : Type) := List (Node K S V W × Tree K S V W)

/-- `extend_path`: push a subtree's node and then its left spine. -/
def Iter.extendPath : Tree K S V W → Iter K S V W → Iter K S V W
  | .nil, st => st
  | .node n l r, st => Iter.extendPath l ((n, r) :: st)

/-- `Iterator::next` of `Iter`. -/
def Iter.next : Iter K S V W → Option (Node K S V W × Iter K S V W)
  | [] => none
  | (n, r) :: st => some (n, Iter.extendPath r st)

/-- `TreapMap::iter`. -/
def TreapMap.iter (m : TreapMap K S V W E) : Iter K S V W := Iter.extendPath m.root []

/-- `extend_path_with_key`: walk down towards `key`. A node at or after the key stays on the
    stack and the walk goes on left; a node before it is dropped and the walk goes on right. -/
def Iter.extendPathWithKey (key : S × K) : Tree K S V W → Iter K S V W → Iter K S V W
  | .nil, st => st
  | .node n l r, st =>
    match C.nextNodeDir key n.treapKey with
    | some .left => Iter.extendPathWithKey key l ((n, r) :: st)
    | none => (n, r) :: st
    | some .right => Iter.extendPathWithKey key r st

/-- `TreapMap::iter_range`, for a config without sort keys: the nodes from `key` on. -/
def TreapMap.iterRange (m : TreapMap K Unit V W E) (C : TreapMapConfig K Unit V W E) (key : K) :
    Iter K Unit V W :=
  Iter.extendPathWithKey C ((), key) m.root []

/-- The nodes left to yield: one for each stack entry and each node of its right subtree. -/
def Iter.remaining : Iter K S V W → Nat
  | [] => 0
  | (_, r) :: st => r.size + 1 + Iter.remaining st

theorem Iter.remaining_extendPath (t : Tree K S V W) (st : Iter K S V W) :
    (Iter.extendPath t st).remaining = t.size + Iter.remaining st := by
  induction t generalizing st with
  | nil => simp [Iter.extendPath]
  | node n l r ihl ihr =>
    simp only [Iter.extendPath, ihl, Iter.remaining, BinTree.size_node]
    omega

/-- Everything an `Iter` yields, one `next` at a time. -/
def Iter.toList : Iter K S V W → List (Node K S V W)
  | [] => []
  | (n, r) :: st => n :: Iter.toList (Iter.extendPath r st)
termination_by it => Iter.remaining it
decreasing_by simp only [Iter.remaining, Iter.remaining_extendPath]; omega

/-! ## Shared-key configs -/

/-- `Counter`, the ext map of a `SharedKeyTreapMapConfig`: it only counts. -/
structure Counter where
  count : Nat
  deriving DecidableEq, Repr

/-- `Counter::view_update`: one more for a new value, then one less for an old one. The count
    is a `usize`; a decrement is always of a count that has a node behind it, so the `Nat`
    subtraction never truncates. -/
def Counter.viewUpdate {V : Type} (c : Counter) (value oldValue : Option V) : Counter :=
  let c : Counter := if value.isSome then ⟨c.count + 1⟩ else c
  if oldValue.isSome then ⟨c.count - 1⟩ else c

/-- The `TreapMapConfig` of every `SharedKeyTreapMapConfig`: keys ordered by `cmp`, the unit
    sort key, a `Counter`, and the blanket `ConsoliableWeight` of an additive weight. -/
def sharedKeyConfig (K V W : Type) [LinearOrder K] [Add W] [Zero W] :
    TreapMapConfig K Unit V W Counter where
  nextNodeDir me other :=
    match compare me.2 other.2 with
    | .lt => some .left
    | .eq => none
    | .gt => some .right
  empty := 0
  consolidate a b := a + b
  viewUpdate c _ value oldValue := c.viewUpdate value oldValue
  len c := c.count
  getSortKey _ _ := some ()
  makeSortKey _ _ _ := ()
  default := ⟨0⟩

end Mazze.Treap
