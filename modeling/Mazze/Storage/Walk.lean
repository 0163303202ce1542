import Mazze.Storage.CompressedPath

/-!
# `walk.rs` — one step of a key down a trie node

`walk::<AM, Node>(key, path, node)` (`merkle_patricia_trie/walk.rs`, L92-L273) matches the
key against the node's compressed path and says where the key goes next: it has
`Arrived` at this node, it `Descent`s into a child, the child it needs is missing
(`ChildNotFound`), or the path and the key part ways (`PathDiverted`). The access mode
only matters on a divergence: a read-only walk answers the uninitialised
`PathDiverted`, a writing walk describes the split a later insertion performs.

The node enters only through `get_child`, so the model takes that function as its
argument. The first statement of the walk is `path_slice.len() - no_second_nibble(mask)`,
which underflows, and panics, on an empty slice whose mask sets the end bits; the walk
therefore answers `Except String`. The key's remaining part after a descent is a plain
byte slice (`KeyPart`): the mask that says its first nibble is already consumed is
dropped, and the child's own path is compared from the first full byte of the key.
-/

set_option autoImplicit false

namespace Mazze.Storage

open CompressedPathRaw

/-- `WalkStop<'key, ChildIdType>`. -/
inductive WalkStop (ChildId : Type) where
  /-- Path matching fails on the compressed path. -/
  | pathDiverted (keyChildIndex : Option UInt8) (keyRemaining : CompressedPathRaw)
      (matchedPath : CompressedPathRaw) (unmatchedChildIndex : UInt8)
      (unmatchedPathRemaining : CompressedPathRaw)
  /-- The key ends exactly at this node. -/
  | arrived
  /-- The key goes on into the child `childNode` at `childIndex`. -/
  | descent (keyRemaining : Bytes) (childIndex : UInt8) (childNode : ChildId)
  /-- The key goes on, but the child it needs does not exist. -/
  | childNotFound (keyRemaining : CompressedPathRaw) (childIndex : UInt8)
  deriving DecidableEq, Repr

/-- `WalkStop::path_diverted_uninitialized()`, the answer of a read-only walk. -/
def WalkStop.pathDivertedUninitialized {ChildId : Type} : WalkStop ChildId :=
  .pathDiverted none default default 0 default

/-- `AM::READ_ONLY` of the two access modes of `utils::access_mode`. -/
inductive AccessMode where
  | read
  | write
  deriving DecidableEq, Repr

def AccessMode.readOnly : AccessMode → Bool
  | .read => true
  | .write => false

/-- The loop `for i in 0..memcmp_len { if path_slice[i] != key[i] { .. } }`: the first
    index below `n` where the two slices differ. -/
def firstMismatch : Bytes → Bytes → Nat → Option Nat
  | p :: ps, k :: ks, n + 1 => if p != k then some 0 else (firstMismatch ps ks n).map (· + 1)
  | _, _, _ => none

section
variable {ChildId : Type}

/-- The `PathDiverted` a writing walk reports at the first mismatching byte `i`
    (`walk.rs`, L120-L168): whether the first halves of the two bytes agree decides if the
    split falls inside the byte or before it. -/
def divergedAt (key pathSlice : Bytes) (pathMask : UInt8) (i : Nat) : WalkStop ChildId :=
  let matchedPathBeginMask := secondNibble pathMask
  let unmatchedPathMask := clearSecondNibble pathMask
  let p := pathSlice.getD i 0
  let k := key.getD i 0
  if firstNibble (p ^^^ k) == 0 then
    -- "First half" matched: the split is at the second nibble of byte `i`.
    .pathDiverted (some (secondNibble k)) ⟨key.drop (i + 1), noMissingNibble⟩
      (newAndApplyMask (pathSlice.take (i + 1)) (matchedPathBeginMask ||| secondNibbleMask))
      (secondNibble p) ⟨pathSlice.drop (i + 1), unmatchedPathMask⟩
  else
    .pathDiverted (some (firstNibble k)) ⟨key.drop i, firstNibbleMask⟩
      ⟨pathSlice.take i, matchedPathBeginMask⟩
      (firstNibble p) ⟨pathSlice.drop i, unmatchedPathMask ||| firstNibbleMask⟩

/-- `walk::<AM, _>(key, path, node)`, with the node's `get_child`. -/
def walk (am : AccessMode) (key : Bytes) (path : CompressedPathRaw)
    (getChild : UInt8 → Option ChildId) : Except String (WalkStop ChildId) :=
  let pathSlice := path.pathSlice
  let pathMask := path.pathMask
  let matchedPathBeginMask := secondNibble pathMask
  let unmatchedPathMask := clearSecondNibble pathMask
  -- `path_slice.len() - (no_second_nibble(path_mask) as usize)`
  if pathSlice.length < boolToNat (noSecondNibble pathMask) then .error subtractOverflow
  else
  let memcmpLen := min (pathSlice.length - boolToNat (noSecondNibble pathMask)) key.length
  match firstMismatch pathSlice key memcmpLen with
  | some i =>
    if am.readOnly then .ok .pathDivertedUninitialized else .ok (divergedAt key pathSlice pathMask i)
  | none =>
    if key.length == memcmpLen then
      -- Key is fully consumed.
      if pathSlice.length > memcmpLen then
        if am.readOnly then .ok .pathDivertedUninitialized
        else
          .ok (.pathDiverted none default ⟨pathSlice.take memcmpLen, matchedPathBeginMask⟩
            (firstNibble (pathSlice.getD memcmpLen 0))
            ⟨pathSlice.drop memcmpLen, unmatchedPathMask ||| firstNibbleMask⟩)
      else .ok .arrived
    else
      let k := key.getD memcmpLen 0
      let next : Option (UInt8 × CompressedPathRaw) :=
        if pathSlice.length == memcmpLen then
          -- Compressed path is fully consumed: descend on the first nibble of the key byte.
          some (firstNibble k, ⟨key.drop memcmpLen, firstNibbleMask⟩)
        else if firstNibble (pathSlice.getD memcmpLen 0 ^^^ k) != 0 then none
        else
          -- One half byte of the path remains; it consumes the key byte.
          some (secondNibble k, ⟨key.drop (memcmpLen + 1), noMissingNibble⟩)
      match next with
      | none =>
        if am.readOnly then .ok .pathDivertedUninitialized
        else
          .ok (.pathDiverted (some (firstNibble k)) ⟨key.drop memcmpLen, firstNibbleMask⟩
            ⟨pathSlice.take memcmpLen, matchedPathBeginMask⟩
            (firstNibble (pathSlice.getD memcmpLen 0))
            ⟨pathSlice.drop memcmpLen, unmatchedPathMask ||| firstNibbleMask⟩)
      | some (childIndex, keyRemaining) =>
        match getChild childIndex with
        | none => .ok (.childNotFound keyRemaining childIndex)
        | some childNode => .ok (.descent keyRemaining.pathSlice childIndex childNode)

end

end Mazze.Storage
