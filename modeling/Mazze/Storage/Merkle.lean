import Mazze.Storage.CompressedPath

/-!
# `merkle.rs` — node and path merkles

`compute_node_merkle`, `compute_path_merkle` and `compute_merkle`
(`merkle_patricia_trie/merkle.rs`, L20-L120). The hash function is the third-party
`keccak_hash::keccak`, so every definition here takes it as the parameter `keccak`; a
`MerkleHash` (an `H256`) is represented by its bytes, which makes `as_bytes()` the
identity. A digest type of exactly 32 bytes would leave no room for the collision-free
`keccak` that soundness arguments assume, so the model does not fix the width.

`MERKLE_NULL_NODE` is `KECCAK_EMPTY` (`primitives/src/state_root.rs`, L11), the published
keccak-256 digest of the empty string.
-/

set_option autoImplicit false

namespace Mazze.Storage

/-- `MerkleHash`, i.e. `H256`, by its bytes. -/
abbrev MerkleHash := Bytes

/-- `KECCAK_EMPTY = keccak("")`. -/
def keccakEmpty : MerkleHash :=
  [0xc5, 0xd2, 0x46, 0x01, 0x86, 0xf7, 0x23, 0x3c, 0x92, 0x7e, 0x7d, 0xb2, 0xdc, 0xc7, 0x03,
   0xc0, 0xe5, 0x00, 0xb6, 0x53, 0xca, 0x82, 0x27, 0x3b, 0x7b, 0xfa, 0xd8, 0x04, 0x5d, 0x85,
   0xa4, 0x70]

/-- `MERKLE_NULL_NODE`: the merkle of the empty trie, and the "no child" entry of a
    children table. -/
def merkleNullNode : MerkleHash := keccakEmpty

/-- `CHILDREN_COUNT`. -/
def childrenCount : Nat := 16

/-- `LEAF_CHILDREN_MERKLE = [MERKLE_NULL_NODE; CHILDREN_COUNT]`. -/
def leafChildrenMerkle : List MerkleHash := List.replicate childrenCount merkleNullNode

section
variable (keccak : Bytes → MerkleHash)

/-- `compute_node_merkle`: `keccak('n' ++ children_merkles ++ maybe_value)`, where an
    absent children table stands for sixteen null merkles and a value, possibly empty (a
    tombstone), is prefixed by `'v'`. -/
def computeNodeMerkle (childrenMerkles : Option (List MerkleHash)) (maybeValue : Option Bytes) :
    MerkleHash :=
  let merkles := childrenMerkles.getD leafChildrenMerkle
  let valuePart := match maybeValue with
    | some value => 'v'.toUInt8 :: value
    | none => []
  keccak ('n'.toUInt8 :: merkles.flatten ++ valuePart)

/-- `compressed_path_info_byte = 128 + 64 * without_first_nibble + path_steps % 63`, in
    `u8`: the steps are cast to `u8` before the remainder. -/
def pathInfoByte (withoutFirstNibble : Bool) (steps : Nat) : UInt8 :=
  128 + 64 * (if withoutFirstNibble then 1 else 0) + (steps % 256).toUInt8 % 63

/-- `compute_path_merkle`. It first asserts that `without_first_nibble` agrees with the
    begin bits of the mask. A path of no nibbles contributes nothing; otherwise the
    buffer is the info byte, the slice with its first nibble cleared when the path starts
    mid-byte, and the node merkle. -/
def computePathMerkle (compressedPath : CompressedPathRaw) (withoutFirstNibble : Bool)
    (nodeMerkle : MerkleHash) : Except String MerkleHash := do
  if withoutFirstNibble != (CompressedPathRaw.secondNibble compressedPath.pathMask !=
      CompressedPathRaw.noMissingNibble) then
    throw "assertion `left == right` failed: without_first_nibble"
  let steps ← compressedPath.pathSteps
  if steps > 0 then
    let slice := match compressedPath.pathSlice, withoutFirstNibble with
      | b :: rest, true => CompressedPathRaw.secondNibble b :: rest
      | bs, _ => bs
    return keccak (pathInfoByte withoutFirstNibble steps :: slice ++ nodeMerkle)
  else
    return nodeMerkle

/-- `compute_merkle`: the path merkle over the node merkle. -/
def computeMerkle (compressedPath : CompressedPathRaw) (pathWithoutFirstNibble : Bool)
    (childrenMerkles : Option (List MerkleHash)) (maybeValue : Option Bytes) :
    Except String MerkleHash :=
  computePathMerkle keccak compressedPath pathWithoutFirstNibble
    (computeNodeMerkle keccak childrenMerkles maybeValue)

end

end Mazze.Storage
