import Mazze.Storage.Merkle
import Mazze.Storage.Walk

/-!
# `trie_node.rs` and `children_table.rs` — the proof node

`VanillaTrieNode<MerkleHash>` (`merkle_patricia_trie/trie_node.rs`, L65-L268) is the node a
`TrieProof` is made of: a compressed path, an `MptValue`, a `VanillaChildrenTable` of
sixteen child merkles, and the node's own `merkle_hash`. The last field is **data**: both
constructors (`VanillaTrieNode::new`) and the RLP decoder (L249-L268) store the merkle they
are given, and only `TrieProofNode::new` (`trie_proof.rs`, L23-L44) computes it.

The children table stores `children_count` beside the table; every constructor the proof
code reaches (`Default`, `From<[MerkleHash; 16]>`, `decode`) sets it to the number of
non-null entries, so the model derives it instead of storing it.
-/

set_option autoImplicit false

namespace Mazze.Storage

/-- `MptValue<ValueType>`: no value, a tombstone (a deleted value), or a value. -/
inductive MptValue (α : Type) where
  | none
  | tombStone
  | some (v : α)
  deriving DecidableEq, Repr, Inhabited

/-- `MptValue::into_option`: a tombstone is the empty value. -/
def MptValue.intoOption : MptValue Bytes → Option Bytes
  | .none => Option.none
  | .tombStone => Option.some []
  | .some x => Option.some x

def MptValue.isTombstone {α : Type} : MptValue α → Bool
  | .tombStone => true
  | _ => false

/-- `VanillaChildrenTable<MerkleHash>`: one merkle per child index, `MERKLE_NULL_NODE`
    where there is no child. The length is part of the type, as `[_; CHILDREN_COUNT]`. -/
structure VanillaChildrenTable where
  table : List MerkleHash
  length_table : table.length = childrenCount
  deriving DecidableEq

namespace VanillaChildrenTable

/-- `Default`: sixteen null children. -/
def empty : VanillaChildrenTable := ⟨leafChildrenMerkle, by simp [leafChildrenMerkle]⟩

/-- `get_children_count`: the non-null entries. -/
def getChildrenCount (t : VanillaChildrenTable) : Nat :=
  (t.table.filter (· != merkleNullNode)).length

/-- `get_child`: the entry at `child_index`, unless it is the null merkle. The source
    reads it with `get_unchecked`; every caller passes a nibble, below 16. -/
def getChild (t : VanillaChildrenTable) (childIndex : UInt8) : Option MerkleHash :=
  match t.table[childIndex.toNat]? with
  | some m => if m == merkleNullNode then none else some m
  | none => none

/-- `iter()` (`VanillaChildrenTableIterator`): the non-null entries with their indices, in
    index order. -/
def iter (t : VanillaChildrenTable) : List (Nat × MerkleHash) :=
  (List.range childrenCount).filterMap fun i =>
    (t.table[i]?).bind fun m => if m == merkleNullNode then none else some (i, m)

/-- `new_from_one_child`: the null table with one child set. -/
def newFromOneChild (childIndex : Nat) (child : MerkleHash) : VanillaChildrenTable :=
  ⟨leafChildrenMerkle.set childIndex child, by simp [leafChildrenMerkle]⟩

end VanillaChildrenTable

/-- `VanillaTrieNode<MerkleHash>`, which is also `TrieProofNode`. -/
structure VanillaTrieNode where
  compressedPath : CompressedPathRaw
  mptValue : MptValue Bytes
  childrenTable : VanillaChildrenTable
  merkleHash : MerkleHash
  deriving DecidableEq

namespace VanillaTrieNode

/-- `VanillaTrieNode::new`: an empty value is stored as a tombstone; the merkle is stored
    as given. -/
def new (merkle : MerkleHash) (childrenTable : VanillaChildrenTable) (maybeValue : Option Bytes)
    (compressedPath : CompressedPathRaw) : VanillaTrieNode where
  compressedPath := compressedPath
  mptValue := match maybeValue with
    | none => .none
    | some v => if v.length == 0 then .tombStone else .some v
  childrenTable := childrenTable
  merkleHash := merkle

def getMerkle (n : VanillaTrieNode) : MerkleHash := n.merkleHash

def valueAsSlice (n : VanillaTrieNode) : MptValue Bytes := n.mptValue

/-- `get_children_merkles`: the table, or `None` for a node without children. -/
def getChildrenMerkles (n : VanillaTrieNode) : Option (List MerkleHash) :=
  if n.childrenTable.getChildrenCount > 0 then some n.childrenTable.table else none

/-- `get_merkle_hash_wo_compressed_path`: the node merkle of the node's own contents. -/
def getMerkleHashWoCompressedPath (keccak : Bytes → MerkleHash) (n : VanillaTrieNode) :
    MerkleHash :=
  computeNodeMerkle keccak n.getChildrenMerkles n.valueAsSlice.intoOption

/-- `TrieNodeWalkTrait::walk`: the free `walk` on the node's path and children. -/
def walk (am : AccessMode) (n : VanillaTrieNode) (key : Bytes) :
    Except String (WalkStop MerkleHash) :=
  Storage.walk am key n.compressedPath n.childrenTable.getChild

/-- `TrieProofNode::new` (`trie_proof.rs`, L23-L44): the only constructor that computes the
    merkle from the contents. -/
def newProofNode (keccak : Bytes → MerkleHash) (childrenTable : VanillaChildrenTable)
    (maybeValue : Option Bytes) (compressedPath : CompressedPathRaw)
    (pathWithoutFirstNibble : Bool) : Except String VanillaTrieNode := do
  let merkle ← computeMerkle keccak compressedPath pathWithoutFirstNibble
    (if childrenTable.getChildrenCount == 0 then none else some childrenTable.table) maybeValue
  return new merkle childrenTable maybeValue compressedPath

end VanillaTrieNode

/-- `TrieProofNode(VanillaTrieNode<MerkleHash>)`. -/
abbrev TrieProofNode := VanillaTrieNode

end Mazze.Storage
