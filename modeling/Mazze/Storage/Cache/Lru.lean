import Mazze.Lib.BinaryHeap

/-!
# `LRU`: the array-backed least-recently-used cache algorithm

`storage/src/impls/delta_mpt/cache/algorithm/lru.rs`. The cached elements form a list, most
recently accessed first, laid out in the vector `recent`: each node holds the element's
`cache_index` and the position of the next, less recent, node. The link back lives outside,
in the element's `LRUHandle` in the cache store: the position of its predecessor, `HEAD_POS`
for the head, `NULL_POS` for an element that is not cached. `head` and `rear` are the
positions of the first and the last node; the last node's `next` is never read.

`PosT` is `u32`, its one instance, so `HEAD_POS` and `NULL_POS` are `-2i32` and `-1i32` cast to
`u32`; positions are `Nat`, which is exact below the capacity, and the capacity must not be
`NULL_POS`. The cache store is a function from cache indices to handles: `get` reads it and
every `CacheAlgoDataSetter` writes it once, when it is dropped, which is at the end of its
statement or block (`get_most_recently_accessed` and `set_most_recently_accessed` are `get`
and `set` of the default implementation). `get_unchecked_mut` out of bounds is undefined
behaviour, and `Vec::swap_remove`, `Vec::remove` and `size -= 1` out of range panic: such a
call returns `none`.
-/

set_option autoImplicit false

namespace Mazze.Storage.Cache

/-- `LRUHandle::HEAD_POS`, `-2i32 as u32`. -/
def headPos : Nat := 4294967294

/-- `LRUHandle::NULL_POS`, `-1i32 as u32`. -/
def nullPos : Nat := 4294967295

/-- `LRUHandle`: what the cache store keeps for an element. -/
structure LRUHandle where
  prevPos : Nat
  deriving DecidableEq, Repr

namespace LRUHandle

/-- `Default`: the element is not cached. -/
instance : Inhabited LRUHandle := ⟨⟨nullPos⟩⟩

/-- `is_hit`. -/
def isHit (h : LRUHandle) : Bool := h.prevPos != nullPos

/-- `is_most_recently_accessed`. -/
def isMostRecentlyAccessed (h : LRUHandle) : Bool := h.prevPos == headPos

end LRUHandle

/-- `DoubleLinkListNode`; its prev link is the element's `LRUHandle`. -/
structure DoubleLinkListNode (K : Type) where
  next : Nat
  cacheIndex : K
  deriving DecidableEq, Repr

/-- `CacheAccessResult`. -/
inductive CacheAccessResult (K : Type) where
  | hit
  | missInsert
  | missReplaced (evicted evictedKeepCacheAlgoData : List K)
  deriving DecidableEq, Repr

/-- `LRU`. -/
structure LRU (K : Type) where
  size : Nat
  capacity : Nat
  head : Nat
  rear : Nat
  recent : List (DoubleLinkListNode K)
  deriving Repr

namespace LRU

variable {K : Type}

/-- `LRU::new`, which panics on a capacity of `NULL_POS`. -/
def new (capacity : Nat) : Option (LRU K) :=
  if capacity = nullPos then none
  else some ⟨0, capacity, nullPos, headPos, []⟩

/-- `self.get_unchecked_mut(pos).next = next`. -/
def setNext (l : LRU K) (pos next : Nat) : Option (LRU K) := do
  let node ← l.recent[pos]?
  pure { l with recent := l.recent.set pos { node with next := next } }

theorem setNext_eq {l : LRU K} {pos : Nat} {node : DoubleLinkListNode K}
    (h : l.recent[pos]? = some node) (next : Nat) :
    l.setNext pos next = some { l with recent := l.recent.set pos { node with next := next } } := by
  simp [setNext, h]

/-- `get_lru_pos_for_handle`: the head, or the node after the predecessor. -/
def getLruPosForHandle (l : LRU K) (handle : LRUHandle) : Option Nat :=
  if handle.isMostRecentlyAccessed then some l.head
  else (l.recent[handle.prevPos]?).map DoubleLinkListNode.next

variable [DecidableEq K]

/-- The branch of `access` that hits an element other than the most recent one, whose
    predecessor is at `prevPos`: the element is unlinked, or at the rear the rear moves back,
    and it is linked in as the new head. -/
def accessHit (l : LRU K) (cacheIndex : K) (store : K → LRUHandle) (prevPos : Nat) :
    Option (LRU K × (K → LRUHandle)) := do
  let elementPos := (← l.recent[prevPos]?).next
  let oldHead := l.head
  -- update rear; there is no need to update the predecessor's `next` of the rear
  let (l, store) ← if elementPos = l.rear then pure ({ l with rear := prevPos }, store)
    else do
      let next := (← l.recent[elementPos]?).next
      let l ← l.setNext prevPos next
      let nextNode ← l.recent[next]?
      pure (l, Function.update store nextNode.cacheIndex ⟨prevPos⟩)
  -- set new head
  let l ← { l with head := elementPos }.setNext elementPos oldHead
  let store := Function.update store cacheIndex ⟨headPos⟩
  -- update old head
  let oldHeadNode ← l.recent[oldHead]?
  pure (l, Function.update store oldHeadNode.cacheIndex ⟨elementPos⟩)

/-- The branch of `access` that misses with room left: the element is pushed at position
    `size` as the new head. -/
def accessInsert (l : LRU K) (cacheIndex : K) (store : K → LRUHandle) :
    Option (LRU K × (K → LRUHandle)) := do
  let oldHead := l.head
  let newHead := l.size
  let store := Function.update store cacheIndex ⟨headPos⟩
  let l := { l with
    head := newHead, recent := l.recent ++ [DoubleLinkListNode.mk oldHead cacheIndex] }
  -- update rear, or the old head
  let (l, store) ← if l.size = 0 then pure ({ l with rear := 0 }, store)
    else do
      let oldHeadNode ← l.recent[oldHead]?
      pure (l, Function.update store oldHeadNode.cacheIndex ⟨newHead⟩)
  pure ({ l with size := l.size + 1 }, store)

/-- The branch of `access` that misses on a full cache: the rear's node is reused for the
    element, which becomes the head, and the rear's element is evicted. -/
def accessReplace (l : LRU K) (cacheIndex : K) (store : K → LRUHandle) :
    Option (LRU K × (K → LRUHandle) × CacheAccessResult K) := do
  let newHead := l.rear
  let oldHead := l.head
  -- update old head
  let oldHeadNode ← l.recent[oldHead]?
  let store := Function.update store oldHeadNode.cacheIndex ⟨newHead⟩
  let rearNode ← l.recent[newHead]?
  -- the rear's handle is read after that write, and written back evicted when its block ends
  let rearHandle := store rearNode.cacheIndex
  let evictedCacheIndex := rearNode.cacheIndex
  let l := { l with recent := l.recent.set newHead { rearNode with cacheIndex := cacheIndex } }
  let l := { l with rear := rearHandle.prevPos }
  let store := Function.update store evictedCacheIndex ⟨nullPos⟩
  -- insert new head
  let l ← { l with head := newHead }.setNext newHead oldHead
  pure (l, Function.update store cacheIndex ⟨headPos⟩,
    .missReplaced [evictedCacheIndex] [])

/-- `CacheAlgorithm::access`. -/
def access (l : LRU K) (cacheIndex : K) (store : K → LRUHandle) :
    Option (LRU K × (K → LRUHandle) × CacheAccessResult K) :=
  let lruHandle := store cacheIndex
  if lruHandle.isHit then
    if lruHandle.isMostRecentlyAccessed then some (l, store, .hit)
    else (l.accessHit cacheIndex store lruHandle.prevPos).map fun r => (r.1, r.2, .hit)
  else if l.size < l.capacity then
    (l.accessInsert cacheIndex store).map fun r => (r.1, r.2, .missInsert)
  else l.accessReplace cacheIndex store

/-- The first half of `delete`: the node at `posToDelete`, whose handle was `lruHandle`, is
    taken out of the list. -/
def unlink (l : LRU K) (store : K → LRUHandle) (lruHandle : LRUHandle) (posToDelete : Nat) :
    Option (LRU K × (K → LRUHandle)) :=
  if posToDelete = l.rear then
    let l := { l with rear := lruHandle.prevPos }
    some (if posToDelete = l.head then { l with head := nullPos } else l, store)
  else do
    let nextPos := (← l.recent[posToDelete]?).next
    let l ← if posToDelete ≠ l.head then l.setNext lruHandle.prevPos nextPos
      else some { l with head := nextPos }
    let nextNode ← l.recent[nextPos]?
    pure (l, Function.update store nextNode.cacheIndex ⟨lruHandle.prevPos⟩)

/-- The second half of `delete`, after `size -= 1`: the node at position `size`, the last one
    of the vector, moves into the freed position `posToDelete`, its neighbours following it. -/
def moveLast (l : LRU K) (store : K → LRUHandle) (posToDelete : Nat) :
    Option (LRU K × (K → LRUHandle)) :=
  let posToMove := l.size
  if posToDelete ≠ posToMove then do
    let moved ← l.recent[posToMove]?
    let lruHandle := store moved.cacheIndex
    let l ← if lruHandle.isMostRecentlyAccessed then some { l with head := posToDelete }
      else l.setNext lruHandle.prevPos posToDelete
    let (l, store) ← if posToMove ≠ l.rear then do
        let next := (← l.recent[posToMove]?).next
        let nextNode ← l.recent[next]?
        pure (l, Function.update store nextNode.cacheIndex ⟨posToDelete⟩)
      else pure ({ l with rear := posToDelete }, store)
    if h : posToDelete < l.recent.length then
      some ({ l with recent := (BinaryHeap.swapRemove l.recent posToDelete h).2 }, store)
    else none
  else if posToDelete < l.recent.length then
    some ({ l with recent := l.recent.eraseIdx posToDelete }, store)
  else none

/-- `CacheAlgorithm::delete`: a cached element is taken out, its handle set evicted. -/
def delete (l : LRU K) (cacheIndex : K) (store : K → LRUHandle) :
    Option (LRU K × (K → LRUHandle)) :=
  let lruHandle := store cacheIndex
  if lruHandle.isHit then do
    let posToDelete ← l.getLruPosForHandle lruHandle
    let (l, store) ←
      l.unlink (Function.update store cacheIndex ⟨nullPos⟩) lruHandle posToDelete
    if l.size = 0 then none
    else ({ l with size := l.size - 1 } : LRU K).moveLast store posToDelete
  else some (l, store)

end LRU

end Mazze.Storage.Cache
