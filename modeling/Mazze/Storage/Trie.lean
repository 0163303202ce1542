import Mazze.Storage.Merkle

/-!
# What a Merkle Patricia trie stores, and what its root commits to

The abstract layer under the proof verifier: a trie as a tree of nodes, each with a
compressed path, an optional value and sixteen child slots; the value it stores under a
key; and its root merkle, `compute_merkle` applied bottom-up as the storage layer does it
(`merkle.rs`; a child's path is hashed without its first nibble when it starts mid-byte).

A key is read as nibbles, high half of each byte first. A node's path covers the nibbles
`CompressedPathRaw.nibbles` lists; a child hangs under the nibble that follows its
parent's path, and a child's own path, which starts mid-byte, does not repeat it.
`Option Bytes` is the value as `MptValue::into_option` gives it: `some []` is a tombstone.
-/

set_option autoImplicit false

namespace Mazze.Storage

open CompressedPathRaw

/-- A trie, or the empty slot of a children table. -/
inductive MptTrie where
  | nil
  | node (compressedPath : CompressedPathRaw) (value : Option Bytes) (children : Fin 16 → MptTrie)

namespace MptTrie

/-- `xs` with the prefix `front` removed, or `none` when `front` is not a prefix. -/
def stripPrefix : List UInt8 → List UInt8 → Option (List UInt8)
  | [], ks => some ks
  | _ :: _, [] => none
  | f :: front, k :: ks => if f = k then stripPrefix front ks else none

/-- The value stored under the nibble sequence `ks`. -/
def lookupNibbles : MptTrie → List UInt8 → Option Bytes
  | nil, _ => none
  | node p v children, ks =>
    match stripPrefix p.nibbles ks with
    | none => none
    | some [] => v
    | some (c :: rest) => if h : c.toNat < 16 then lookupNibbles (children ⟨c.toNat, h⟩) rest else none

/-- The value stored under the key `key`. -/
def lookup (t : MptTrie) (key : Bytes) : Option Bytes := t.lookupNibbles (bytesNibbles key)

/-- Whether the slot holds a node. -/
def isNode : MptTrie → Bool
  | nil => false
  | node .. => true

/-- The merkle of a slot: the null merkle for an empty one, else `compute_merkle` of the
    node's path, value and children merkles; `None` stands for the children of a node that
    has none, as `get_children_merkles` gives it. -/
def merkle (keccak : Bytes → MerkleHash) : MptTrie → Except String MerkleHash
  | nil => .ok merkleNullNode
  | node p v children => do
    let childMerkles ← (List.finRange 16).mapM fun i => merkle keccak (children i)
    let hasChildren := (List.finRange 16).any fun i => (children i).isNode
    computeMerkle keccak p (secondNibble p.pathMask != noMissingNibble)
      (if hasChildren then some childMerkles else none) v

/-- A child slot is canonical for its index `i`: empty, or a node whose path starts
    mid-byte on the nibble `i`, whose mask sets the begin and end bits only to `0x0f` and
    `0xf0`, which holds a value or at least two children, and whose own children are
    canonical. -/
def canonicalChild : Fin 16 → MptTrie → Prop
  | _, nil => True
  | i, node p v children =>
    secondNibble p.pathMask = 0x0f ∧ (clearSecondNibble p.pathMask = 0 ∨
      clearSecondNibble p.pathMask = 0xf0) ∧
    (∃ b rest, p.pathSlice = b :: rest ∧ (firstNibble b).toNat = i.val) ∧
    (v.isSome ∨ 2 ≤ ((List.finRange 16).filter fun j => (children j).isNode).length) ∧
    ∀ j, canonicalChild j (children j)

/-- A canonical trie: the root has the empty path and every child slot is canonical. -/
def Canonical : MptTrie → Prop
  | nil => True
  | node p _ children => p = ⟨[], 0⟩ ∧ ∀ j, canonicalChild j (children j)

end MptTrie

end Mazze.Storage
