import Mazze.Lib.BinaryHeap

/-!
# `HeapMap`: a max-heap with a map from keys to positions

`util/heap-map/src/lib.rs`. A `HeapMap` keeps its nodes in a vector laid out as a binary
max-heap on the node's value, and a hash map from each key to its node's index, so that a node
can be found, re-ranked or removed by key.

Both sifts work with a hole rather than with swaps: the sifted node `val` is held aside while
the nodes it passes move one level into the hole, each with its key pointed at its new index,
and `val` is written where the hole stops (`moveInto` is that one write of a node and its
key). The vector is a `List`, the `HashMap<K, usize>` a function `K → Option Nat`, and
`Hash + Eq` on keys is `DecidableEq`. `Node`'s `Ord` compares values only, so every comparison
of nodes below is one of their values.

A read out of bounds panics in the source; such an operation returns `none`. Inside the sift
loops every index is in bounds by the loop's own guards, and the sifts are called only at
indices the caller has just read, so they take the bound as an argument. A write `v[i] = x`
follows a read of `v[i]` or of a position the loop keeps in bounds, and is `List.set`.
-/

set_option autoImplicit false

namespace Mazze.Util

open BinaryHeap

/-- `Node`. -/
structure Node (K V : Type) where
  key : K
  value : V
  deriving DecidableEq, Repr

/-- `HeapMap`. -/
structure HeapMap (K V : Type) where
  data : List (Node K V)
  mapping : K → Option Nat

namespace HeapMap

variable {K V : Type}

/-- `HeapMap::new`, also what `clear` leaves. -/
def new : HeapMap K V := ⟨[], fun _ => none⟩

/-- `is_empty`. -/
def isEmpty (h : HeapMap K V) : Bool := h.data.isEmpty

/-- `len`. -/
def len (h : HeapMap K V) : Nat := h.data.length

theorem length_pos_of_not_isEmpty {h : HeapMap K V} (hne : ¬h.isEmpty = true) :
    0 < h.data.length := by
  simpa [isEmpty, List.length_pos_iff] using hne

/-- `top`. -/
def top (h : HeapMap K V) : Option (K × V) :=
  h.data[0]?.map fun node => (node.key, node.value)

section Order

variable [LinearOrder V]

/-- `sift_down`'s choice of the child to compare with: `child + 1` when it exists and
    outranks `child`. -/
def greaterChild (data : List (Node K V)) (child : Nat) (hc : child < data.length) :
    Fin data.length :=
  if hr : child + 1 < data.length then
    if data[child + 1].value > data[child].value then ⟨child + 1, hr⟩ else ⟨child, hc⟩
  else ⟨child, hc⟩

theorem le_greaterChild (data : List (Node K V)) (child : Nat) (hc : child < data.length) :
    child ≤ greaterChild data child hc := by
  unfold greaterChild
  split_ifs <;> simp

end Order

variable [DecidableEq K]

/-- `self.data[pos] = node; self.mapping.insert(node.key, pos)`: one step of either sift, and
    the write that ends it. -/
def moveInto (h : HeapMap K V) (pos : Nat) (node : Node K V) : HeapMap K V :=
  ⟨h.data.set pos node, Function.update h.mapping node.key (some pos)⟩

@[simp]
theorem moveInto_data (h : HeapMap K V) (pos : Nat) (node : Node K V) :
    (h.moveInto pos node).data = h.data.set pos node := rfl

@[simp]
theorem moveInto_mapping (h : HeapMap K V) (pos : Nat) (node : Node K V) :
    (h.moveInto pos node).mapping = Function.update h.mapping node.key (some pos) := rfl

/-- `get`. -/
def get (h : HeapMap K V) (key : K) : Option V :=
  match h.mapping key with
  | none => none
  | some index => h.data[index]?.map Node.value

variable [LinearOrder V]

/-- The `while pos > 0` loop of `sift_up`: while `val` outranks the parent of the hole at
    `pos`, the parent moves down into the hole. Returns the map and where the hole stopped. -/
def siftUpLoop (val : Node K V) (h : HeapMap K V) (pos : Nat) (hpos : pos < h.data.length) :
    HeapMap K V × Nat :=
  if hp : pos > 0 then
    if h.data[(pos - 1) / 2].value ≥ val.value then (h, pos)
    else
      siftUpLoop val (h.moveInto pos h.data[(pos - 1) / 2]) ((pos - 1) / 2)
        (by rw [moveInto_data, List.length_set]; omega)
  else (h, pos)
termination_by pos

/-- `sift_up`. -/
def siftUp (h : HeapMap K V) (index : Nat) (hi : index < h.data.length) : HeapMap K V :=
  let r := siftUpLoop h.data[index] h index hi
  r.1.moveInto r.2 h.data[index]

/-- The `while child < self.data.len()` loop of `sift_down`: while the greater child of the
    hole at `pos` outranks `val`, that child moves up into the hole. -/
def siftDownLoop (val : Node K V) (h : HeapMap K V) (pos : Nat) : HeapMap K V × Nat :=
  if hc : pos * 2 + 1 < h.data.length then
    let child := greaterChild h.data (pos * 2 + 1) hc
    have hge := le_greaterChild h.data (pos * 2 + 1) hc
    if val.value ≥ h.data[child].value then (h, pos)
    else siftDownLoop val (h.moveInto pos h.data[child]) child
  else (h, pos)
termination_by h.data.length - pos
decreasing_by rw [moveInto_data, List.length_set]; omega

/-- `sift_down`. -/
def siftDown (h : HeapMap K V) (index : Nat) (hi : index < h.data.length) : HeapMap K V :=
  let r := siftDownLoop h.data[index] h index
  r.1.moveInto r.2 h.data[index]

/-- The `match self.data[index].cmp(&origin_node)` that `update_with` and `update` end with:
    a node that lost rank sinks, one that gained rank rises. -/
def resift (h : HeapMap K V) (index : Nat) (hi : index < h.data.length) (origin : V) :
    HeapMap K V :=
  match compare h.data[index].value origin with
  | .lt => h.siftDown index hi
  | .gt => h.siftUp index hi
  | .eq => h

/-- `update`, called by `insert` on a key it has: the node is replaced, re-ranked, and its old
    value returned. `unwrap` panics on a key that is not there. -/
def update (h : HeapMap K V) (key : K) (value : V) : Option (HeapMap K V × V) :=
  match h.mapping key with
  | none => none
  | some index =>
    if hi : index < h.data.length then
      let originNode := h.data[index]
      let h' : HeapMap K V := ⟨h.data.set index ⟨key, value⟩, h.mapping⟩
      some (h'.resift index (by simpa [h'] using hi) originNode.value, originNode.value)
    else none

/-- `append`: the node is pushed and sifted up from the end. -/
def append (h : HeapMap K V) (key : K) (value : V) : HeapMap K V :=
  let h' : HeapMap K V := ⟨h.data ++ [⟨key, value⟩], h.mapping⟩
  h'.siftUp h.data.length (by simp [h'])

/-- `insert`: the old value when `key` was there, `None` when it was appended. -/
def insert (h : HeapMap K V) (key : K) (value : V) : Option (HeapMap K V × Option V) :=
  if (h.mapping key).isSome then
    (h.update key value).map fun r => (r.1, some r.2)
  else some (h.append key value, none)

/-- `remove`: the last node is swapped into the removed one's place and sifted the way its
    value compares with the removed one; when they are equal only its key moves. -/
def remove (h : HeapMap K V) (key : K) : Option (HeapMap K V × Option V) :=
  match h.mapping key with
  | none => some (h, none)
  | some index =>
    if hi : index < h.data.length then
      let r := swapRemove h.data index hi
      let h' : HeapMap K V := ⟨r.2, Function.update h.mapping key none⟩
      -- `index != self.data.len()`, the index being at most the new length
      if hl : index < r.2.length then
        match compare r.2[index].value r.1.value with
        | .lt => some (h'.siftDown index hl, some r.1.value)
        | .gt => some (h'.siftUp index hl, some r.1.value)
        | .eq => some (⟨r.2, Function.update h'.mapping r.2[index].key (some index)⟩, some r.1.value)
      else some (h', some r.1.value)
    else none

/-- `update_with`: `update_fn` rewrites the value in place, then the node is re-ranked. -/
def updateWith (h : HeapMap K V) (key : K) (updateFn : V → V) : Option (HeapMap K V) :=
  match h.mapping key with
  | none => some h
  | some index =>
    if hi : index < h.data.length then
      let originNode := h.data[index]
      let h' : HeapMap K V :=
        ⟨h.data.set index ⟨originNode.key, updateFn originNode.value⟩, h.mapping⟩
      some (h'.resift index (by simpa [h'] using hi) originNode.value)
    else none

/-- `pop`: the root is swapped with the last node and removed, the new root sifted down, and
    the removed key dropped from the map last. -/
def pop (h : HeapMap K V) : HeapMap K V × Option (K × V) :=
  if hne : h.isEmpty then (h, none)
  else
    let r := swapRemove h.data 0 (length_pos_of_not_isEmpty hne)
    let h' : HeapMap K V := ⟨r.2, h.mapping⟩
    let h'' := if hr : 0 < r.2.length then h'.siftDown 0 hr else h'
    (⟨h''.data, Function.update h''.mapping r.1.key none⟩, some (r.1.key, r.1.value))

end HeapMap

end Mazze.Util
