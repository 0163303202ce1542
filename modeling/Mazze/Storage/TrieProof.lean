import Mathlib
import Mazze.Lib.Loop
import Mazze.Storage.TrieNode
import Mazze.Storage.Trie

/-!
# `trie_proof.rs` — the Merkle proof and its verifier

`TrieProof` (`merkle_patricia_trie/trie_proof.rs`) is a list of proof nodes, looked up by
their stored merkle. `TrieProof::new` (L52-L109) checks that every node is named as a
child by some earlier node (or is the first node) and counts the leaves; it checks
nothing about the stored merkles. The verifier `is_valid` (L197-L246) starts from the
claimed root merkle and repeatedly walks the key through the node with that merkle,
until the walk arrives, diverts, misses a child, or names a merkle the proof lacks.

`is_valid` is a `loop`, with the pair (key remaining, merkle) as its state, so it is
modelled as a `Loop.LoopStep` body (`isValidBody`) run on fuel. Its `pred` is an `FnOnce`
that is called exactly once, at the end, on the node the key reached or on `None`; the
loop is therefore modelled as the search for that argument (`isValidSearch`), and each
public verifier (`is_valid_kv`, `get_value`, `if_proves_key`, `is_valid_node_merkle`) is
that search followed by its own predicate.

`HashMap`s are modelled as functions, built by the same sequence of inserts as the source.
-/

set_option autoImplicit false

namespace Mazze.Storage

/-- `ErrorKind::InvalidTrieProof`, the only error `TrieProof::new` raises. -/
inductive TrieProofError where
  | invalidTrieProof
  deriving DecidableEq, Repr

/-- `ParentInfo`: the node is the `child_index` child of the node at `parent_node_index`. -/
structure ParentInfo where
  parentNodeIndex : Nat
  childIndex : Nat
  deriving DecidableEq, Repr

/-- `TrieProof`. Its `merkle_to_node_index` only names indices of `nodes`, which is why the
    source can `expect("Proof node guaranteed to exist")`; here that is a field. -/
structure TrieProof where
  nodes : List TrieProofNode
  merkleToNodeIndex : MerkleHash → Option Nat
  numberLeafNodes : Nat
  index_lt : ∀ h i, merkleToNodeIndex h = some i → i < nodes.length

namespace TrieProof

/-- `TrieProof::MAX_NODES`. -/
def maxNodes : Nat := 1000

/-- One `insert` of `collect::<HashMap<H256, usize>>()`. -/
def insertIndex (m : MerkleHash → Option Nat) (p : TrieProofNode × Nat) :
    MerkleHash → Option Nat :=
  Function.update m p.1.merkleHash (some p.2)

/-- `nodes.iter().enumerate().map(|(index, node)| (merkle, index)).collect::<HashMap>()`:
    on a repeated merkle the later index wins. -/
def indexMerkles (nodes : List TrieProofNode) : MerkleHash → Option Nat :=
  nodes.zipIdx.foldl insertIndex fun _ => none

/-- Inserting only indices below `n` into a map whose indices are below `n` keeps them so. -/
theorem foldl_update_lt (n : Nat) :
    ∀ (l : List (TrieProofNode × Nat)) (m : MerkleHash → Option Nat),
      (∀ p ∈ l, p.2 < n) → (∀ (h : MerkleHash) (i : Nat), m h = some i → i < n) →
      ∀ (h : MerkleHash) (i : Nat),
        l.foldl insertIndex m h = some i →
        i < n := by
  intro l
  induction l with
  | nil => intro m _ hm; exact hm
  | cons p l ih =>
    intro m hl hm
    apply ih _ (fun q hq => hl q (List.mem_cons_of_mem p hq))
    intro h i hi
    by_cases hh : h = p.1.merkleHash
    · subst hh
      simp only [insertIndex, Function.update_self, Option.some.injEq] at hi
      exact hi ▸ hl p List.mem_cons_self
    · rw [insertIndex, Function.update_of_ne hh] at hi
      exact hm h i hi

theorem indexMerkles_lt (nodes : List TrieProofNode) :
    ∀ h i, indexMerkles nodes h = some i → i < nodes.length := by
  apply foldl_update_lt
  · intro p hp
    exact (List.mem_zipIdx' hp).1
  · intro h i hi; simp at hi

/-- The connectivity check of `TrieProof::new` (L60-L84): every node's merkle must already
    be a key of `connected_child_parent_map` (the first node's is put there first), and
    each node then adds its children, with itself as their parent. -/
def connect (nodes : List TrieProofNode) :
    Except TrieProofError (MerkleHash → Option (List ParentInfo)) :=
  let init : MerkleHash → Option (List ParentInfo) := match nodes.head? with
    | some node => Function.update (fun _ => none) node.merkleHash (some [])
    | none => fun _ => none
  let addChildren (map : MerkleHash → Option (List ParentInfo)) (nodeIndex : Nat)
      (child : Nat × MerkleHash) : MerkleHash → Option (List ParentInfo) :=
    Function.update map child.2 (some ((map child.2).getD [] ++ [⟨nodeIndex, child.1⟩]))
  let visit (map : MerkleHash → Option (List ParentInfo)) (entry : TrieProofNode × Nat) :
      Except TrieProofError (MerkleHash → Option (List ParentInfo)) :=
    if (map entry.1.merkleHash).isNone then .error .invalidTrieProof
    else .ok (entry.1.childrenTable.iter.foldl (fun m c => addChildren m entry.2 c) map)
  nodes.zipIdx.foldlM visit init

/-- `number_leaf_nodes` (L86-L102): the nodes no node of the proof names as its parent. -/
def countLeaves (nodes : List TrieProofNode) (map : MerkleHash → Option (List ParentInfo)) :
    Nat :=
  let markParents (acc : List Bool) (node : TrieProofNode) : List Bool :=
    ((map node.merkleHash).getD []).foldl (fun acc info => acc.set info.parentNodeIndex true) acc
  let isNonLeaf := nodes.foldl markParents (List.replicate nodes.length false)
  (isNonLeaf.filter (· == false)).length

/-- `TrieProof::new`. -/
def new (nodes : List TrieProofNode) : Except TrieProofError TrieProof := do
  let map ← connect nodes
  return ⟨nodes, indexMerkles nodes, countLeaves nodes map, indexMerkles_lt nodes⟩

/-- `get_merkle_root`: the first node's merkle, or the null merkle of an empty proof. -/
def getMerkleRoot (p : TrieProof) : MerkleHash :=
  match p.nodes.head? with
  | none => merkleNullNode
  | some node => node.merkleHash

/-- The node stored under a merkle, through `merkle_to_node_index` and `nodes.get`. -/
def nodeOf (p : TrieProof) (hash : MerkleHash) : Option TrieProofNode :=
  match hp : p.merkleToNodeIndex hash with
  | none => none
  | some i => some (p.nodes.get ⟨i, p.index_lt hash i hp⟩)

/-! ## The verifier loop -/

/-- One turn of the `loop` of `is_valid` (L213-L245), on the state `(key, hash)`. It ends
    with `none` when the proof lacks the node (`return false`, `pred` not called), with
    `some arg` when `pred` is called on `arg`, or with the walk's panic. -/
def isValidBody (p : TrieProof) :
    Bytes × MerkleHash → Loop.LoopStep (Except String (Option (Option TrieProofNode)))
      (Bytes × MerkleHash)
  | (key, hash) =>
    match p.nodeOf hash with
    | none => .done (.ok none)
    | some node =>
      match node.walk .read key with
      | .error e => .done (.error e)
      | .ok .arrived => .done (.ok (some (some node)))
      | .ok (.pathDiverted ..) => .done (.ok (some none))
      | .ok (.childNotFound ..) => .done (.ok (some none))
      | .ok (.descent keyRemaining _ childNode) => .next (keyRemaining, childNode)

/-- `is_valid` up to its predicate, on `fuel` turns of the loop: an empty trie calls
    `pred(None)` at once; otherwise the loop runs from `(path, root)`. -/
def isValidSearch (p : TrieProof) (path : Bytes) (root : MerkleHash) (fuel : Nat) :
    Option (Except String (Option (Option TrieProofNode))) :=
  if root == merkleNullNode then some (.ok (some none))
  else Loop.run p.isValidBody fuel (path, root)

/-- `is_valid(path, root, pred)`. -/
def isValid (p : TrieProof) (path : Bytes) (root : MerkleHash)
    (pred : Option TrieProofNode → Bool) (fuel : Nat) : Option (Except String Bool) :=
  (p.isValidSearch path root fuel).map fun r => r.map fun
    | none => false
    | some arg => pred arg

/-- `is_valid_kv(key, value, root)`: the key reaches a node holding `value`, or reaches no
    node when `value` is `None`. -/
def isValidKv (p : TrieProof) (key : Bytes) (value : Option Bytes) (root : MerkleHash)
    (fuel : Nat) : Option (Except String Bool) :=
  p.isValid key root (fun
    | none => value == none
    | some node => value == node.valueAsSlice.intoOption) fuel

/-- `get_value(key, root)`: whether the search completed, and the value of the node the
    key reached. -/
def getValue (p : TrieProof) (key : Bytes) (root : MerkleHash) (fuel : Nat) :
    Option (Except String (Bool × Option Bytes)) :=
  (p.isValidSearch key root fuel).map fun r => r.map fun
    | none => (false, none)
    | some arg => (true, arg.bind fun node => node.valueAsSlice.intoOption)

/-- `if_proves_key(key)`: the search from the proof's own root. -/
def ifProvesKey (p : TrieProof) (key : Bytes) (fuel : Nat) :
    Option (Except String (Bool × Option TrieProofNode)) :=
  (p.isValidSearch key p.getMerkleRoot fuel).map fun r => r.map fun
    | none => (false, none)
    | some arg => (true, arg)

/-- `is_valid_node_merkle(key, node_merkle, root)`: `None` proves absence, `TombStone` a
    tombstone, and `Some(h)` a node whose merkle without its path is `h`. -/
def isValidNodeMerkle (keccak : Bytes → MerkleHash) (p : TrieProof) (key : Bytes)
    (nodeMerkle : MptValue MerkleHash) (root : MerkleHash) (fuel : Nat) :
    Option (Except String Bool) :=
  p.isValid key root (fun
    | none => nodeMerkle == .none
    | some node =>
      if node.valueAsSlice.isTombstone then nodeMerkle == .tombStone
      else nodeMerkle == .some (node.getMerkleHashWoCompressedPath keccak)) fuel

/-- `impl Decodable for TrieProof` (L348-L358), from the list of decoded nodes: at most
    `MAX_NODES` items, then `TrieProof::new`. The RLP item parser is the third-party `rlp`
    crate. -/
def decode (items : List TrieProofNode) : Except String TrieProof :=
  if items.length > maxNodes then .error "TrieProof too long."
  else match new items with
    | .error _ => .error "Invalid TrieProof"
    | .ok proof => .ok proof

/-! ## What `new` and `decode` build -/

theorem new_ok {nodes : List TrieProofNode} {p : TrieProof} (h : new nodes = .ok p) :
    p.nodes = nodes ∧ p.merkleToNodeIndex = indexMerkles nodes := by
  unfold new at h
  cases hc : connect nodes with
  | error e => rw [hc] at h; cases h
  | ok map =>
    rw [hc] at h
    cases h
    exact ⟨rfl, rfl⟩

theorem decode_ok {items : List TrieProofNode} {p : TrieProof} (h : decode items = .ok p) :
    new items = .ok p := by
  unfold decode at h
  split at h
  · cases h
  · split at h
    · cases h
    · rename_i proof hnew
      cases h
      exact hnew

/-- A proof of one node: its node is the one stored under its merkle. -/
theorem nodeOf_singleton {node : TrieProofNode} {p : TrieProof} (h : new [node] = .ok p) :
    p.nodeOf node.merkleHash = some node := by
  obtain ⟨hn, hi⟩ := new_ok h
  have hidx : p.merkleToNodeIndex node.merkleHash = some 0 := by
    simp [hi, indexMerkles, insertIndex]
  unfold nodeOf
  split
  · rename_i hp; rw [hidx] at hp; cases hp
  · rename_i i hp
    rw [hidx] at hp
    cases hp
    simp [hn]

/-- `new` accepts a single node that names no child: its merkle is the first key of the
    connectivity map. -/
theorem new_singleton_ok (node : TrieProofNode) (hc : node.childrenTable.iter = []) :
    ∃ p, new [node] = .ok p := by
  simp [new, connect, hc]

/-! ## Nothing checks the stored merkles

`VanillaTrieNode::decode` stores the merkle of RLP field 0 as it comes, and `new` checks
only connectivity, so a proof can name any merkle for any contents. The verifier looks a
node up by that name and never hashes it: one node stored under the claimed root, with
the empty path and the value `w`, proves `w` under the empty key. -/

/-- The one-node proof claiming `value` under the empty key of the trie `root`. -/
def claimedRootNode (root : MerkleHash) (value : Bytes) : TrieProofNode :=
  VanillaTrieNode.new root VanillaChildrenTable.empty (some value) ⟨[], 0⟩

theorem iter_empty : VanillaChildrenTable.empty.iter = [] := by decide

/-- **The verifier accepts any claimed root value.** For every root other than the null
    merkle and every non-empty value, the decoded one-node proof `claimedRootNode` passes
    `is_valid_kv` on the empty key, in one turn of the loop. -/
theorem isValidKv_claimedRootNode (root : MerkleHash) (hroot : root ≠ merkleNullNode)
    (value : Bytes) (hv : value ≠ []) :
    ∃ p, decode [claimedRootNode root value] = .ok p ∧
      p.isValidKv [] (some value) root 1 = some (.ok true) := by
  obtain ⟨p, hp⟩ := new_singleton_ok (claimedRootNode root value) iter_empty
  have hnode : p.nodeOf root = some (claimedRootNode root value) := nodeOf_singleton hp
  have hwalk : (claimedRootNode root value).walk .read [] = .ok .arrived := by
    simp [claimedRootNode, VanillaTrieNode.walk, VanillaTrieNode.new, walk, firstMismatch,
      CompressedPathRaw.noSecondNibble, CompressedPathRaw.boolToNat,
      CompressedPathRaw.clearSecondNibble, CompressedPathRaw.noMissingNibble]
  have hstep : p.isValidBody ([], root) =
      .done (.ok (some (some (claimedRootNode root value)))) := by
    simp only [isValidBody, hnode, hwalk]
  have hval : (claimedRootNode root value).valueAsSlice.intoOption = some value := by
    simp [claimedRootNode, VanillaTrieNode.new, VanillaTrieNode.valueAsSlice, MptValue.intoOption,
      hv]
  refine ⟨p, by simp [decode, maxNodes, hp], ?_⟩
  simp [isValidKv, isValid, isValidSearch, hroot, Loop.run_succ_of_done hstep, Except.map, hval]

/-- The trie of one node, holding `[1]` under the empty key. -/
def oneValueTrie : MptTrie := .node ⟨[], 0⟩ (some [1]) fun _ => .nil

theorem isValidKv_unsound :
    ¬ ∀ (keccak : Bytes → MerkleHash), Function.Injective keccak →
      ∀ (items : List TrieProofNode) (p : TrieProof), decode items = .ok p →
      ∀ (key : Bytes) (value : Option Bytes) (root : MerkleHash), root ≠ merkleNullNode →
      (∃ fuel, p.isValidKv key value root fuel = some (.ok true)) →
      ∀ t : MptTrie, t.Canonical → t.merkle keccak = .ok root → t.lookup key = value := by
  intro hsound
  -- With `keccak = id` the root merkle is the node buffer itself.
  obtain ⟨root, hroot⟩ : ∃ root, oneValueTrie.merkle id = .ok root := ⟨_, rfl⟩
  have hnull : root ≠ merkleNullNode := by
    intro h; subst h; revert hroot; decide
  obtain ⟨p, hp, hvalid⟩ := isValidKv_claimedRootNode root hnull [2] (by simp)
  have hcanon : oneValueTrie.Canonical := by
    simp [oneValueTrie, MptTrie.Canonical, MptTrie.canonicalChild]
  have hlookup := hsound id Function.injective_id _ p hp [] (some [2]) root hnull ⟨1, hvalid⟩
    oneValueTrie hcanon hroot
  revert hlookup
  decide

/-! ## A node that is its own child

`walk` descends at a first-nibble boundary without shortening the key: the nibble it
descends on is the first half of `key[0]`, which the child's mid-byte path compares
again. A node with the empty path that lists its own merkle as a child therefore sends
the key back to itself, unchanged, and the loop of `is_valid` never exits. -/

/-- A node with the empty path whose child `0` is its own merkle `m`. -/
def selfChildNode (m : MerkleHash) : TrieProofNode :=
  VanillaTrieNode.new m (VanillaChildrenTable.newFromOneChild 0 m) none ⟨[], 0⟩

theorem getChild_newFromOneChild (m : MerkleHash) (hm : m ≠ merkleNullNode) :
    (VanillaChildrenTable.newFromOneChild 0 m).getChild 0 = some m := by
  simp [VanillaChildrenTable.getChild, VanillaChildrenTable.newFromOneChild, leafChildrenMerkle,
    childrenCount, hm]

theorem walk_selfChildNode (m : MerkleHash) (hm : m ≠ merkleNullNode) (b : UInt8) (rest : Bytes)
    (hb : CompressedPathRaw.firstNibble b = 0) :
    (selfChildNode m).walk .read (b :: rest) = .ok (.descent (b :: rest) 0 m) := by
  simp [selfChildNode, VanillaTrieNode.walk, VanillaTrieNode.new, walk, firstMismatch, hb,
    getChild_newFromOneChild m hm, CompressedPathRaw.noSecondNibble, CompressedPathRaw.boolToNat,
    CompressedPathRaw.clearSecondNibble, CompressedPathRaw.noMissingNibble]

/-- **A node that walks the key back to itself stops the verifier forever.** -/
theorem isValidSearch_diverges_of_self_descent (p : TrieProof) (key : Bytes) (hash : MerkleHash)
    (node : TrieProofNode) (c : UInt8) (hroot : hash ≠ merkleNullNode)
    (hn : p.nodeOf hash = some node) (hw : node.walk .read key = .ok (.descent key c hash)) :
    ∀ fuel, p.isValidSearch key hash fuel = none := by
  have hstep : p.isValidBody (key, hash) = .next (key, hash) := by
    simp [isValidBody, hn, hw]
  intro fuel
  simp only [isValidSearch, beq_iff_eq, hroot, if_false]
  exact Loop.diverges_of_next_self hstep fuel

/-- The merkle `[1, 1, …, 1]` of 32 bytes. -/
def selfMerkle : MerkleHash := List.replicate 32 1

theorem isValidKv_selfChildNode_diverges :
    ∃ p, decode [selfChildNode selfMerkle] = .ok p ∧
      ∀ (value : Option Bytes) (fuel : Nat), p.isValidKv [0] value selfMerkle fuel = none := by
  have hnull : selfMerkle ≠ merkleNullNode := by decide
  obtain ⟨p, hp⟩ : ∃ p, new [selfChildNode selfMerkle] = .ok p := by
    simp [new, connect, selfChildNode, VanillaTrieNode.new]
  refine ⟨p, by simp [decode, maxNodes, hp], ?_⟩
  intro value fuel
  have hdiv := isValidSearch_diverges_of_self_descent p [0] selfMerkle _ 0 hnull
    (nodeOf_singleton hp) (walk_selfChildNode selfMerkle hnull 0 [] (by decide)) fuel
  simp [isValidKv, isValid, hdiv]

end TrieProof

end Mazze.Storage
