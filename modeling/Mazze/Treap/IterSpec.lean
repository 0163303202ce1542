import Mathlib
import Mazze.Treap.Ordered

/-!
# What the treap's iterators yield

`Iter` is the stack of `map.rs`: each node on it waits with the right subtree it pushes, with
its left spine, when it is yielded. Whatever a stack yields is each waiting node followed by
its right subtree in order, so `iter` yields the tree in order (`TreapMap.toList_iter`).

`iter_range(key)` walks down towards `key` first: a node at or after the key waits on the stack
and the walk goes left, a node before it is dropped with its left subtree and the walk goes
right. On a tree sorted by the rank `next_node_dir` compares (`Compares`, `Sorted`), the walk
leaves exactly the nodes of rank at or above the key's, in order
(`TreapMap.toList_iterRange`).
-/

set_option autoImplicit false

namespace Mazze.Treap

variable {K S V W E : Type}

@[simp] theorem Iter.toList_nil : Iter.toList ([] : Iter K S V W) = [] := by
  rw [Iter.toList]

@[simp] theorem Iter.toList_cons (n : Node K S V W) (r : Tree K S V W) (st : Iter K S V W) :
    Iter.toList ((n, r) :: st) = n :: Iter.toList (Iter.extendPath r st) := by
  rw [Iter.toList]

/-- Pushing a subtree's left spine yields the subtree in order before the rest of the stack. -/
theorem Iter.toList_extendPath (t : Tree K S V W) (st : Iter K S V W) :
    Iter.toList (Iter.extendPath t st) = t.toList ++ Iter.toList st := by
  induction t generalizing st with
  | nil => rfl
  | node n l r ihl ihr =>
    rw [Iter.extendPath, ihl, Iter.toList_cons, ihr, BinTree.toList_node]
    simp

/-- **`iter` yields the tree in order.** -/
theorem TreapMap.toList_iter (m : TreapMap K S V W E) : Iter.toList m.iter = m.root.toList := by
  rw [TreapMap.iter, Iter.toList_extendPath, Iter.toList_nil, List.append_nil]

section Range

variable {O : Type} [LinearOrder O] {rank : S × K → O} {C : TreapMapConfig K S V W E}

/-- The walk of `extend_path_with_key` down a sorted subtree leaves its nodes at or above the
    key, in order, before the rest of the stack. -/
theorem Iter.toList_extendPathWithKey (hC : Compares rank C) (key : S × K) {t : Tree K S V W}
    (hs : Sorted rank t.entries) (st : Iter K S V W) :
    Iter.toList (Iter.extendPathWithKey C key t st) =
      t.toList.filter (fun n => decide (rank key ≤ rank n.treapKey)) ++ Iter.toList st := by
  induction t generalizing st with
  | nil => rfl
  | node n l r ihl ihr =>
    obtain ⟨hl, hr, hln, hnr, -⟩ := sorted_node.mp hs
    -- the left subtree ranks below the node, the right one above it
    have hlt : ∀ x ∈ l.toList, rank x.treapKey < rank n.treapKey := fun x hx =>
      by simpa using hln x.toEntry (List.mem_map_of_mem hx)
    have hgt : ∀ x ∈ r.toList, rank n.treapKey < rank x.treapKey := fun x hx =>
      by simpa using hnr x.toEntry (List.mem_map_of_mem hx)
    have hdir := hC key n.treapKey
    rw [BinTree.toList_node, List.filter_append, List.filter_cons]
    rcases lt_trichotomy (rank key) (rank n.treapKey) with h | h | h
    · -- the node and its right subtree wait on the stack; the walk goes on left
      rw [compare_lt_iff_lt.mpr h] at hdir
      rw [Iter.extendPathWithKey, hdir, dirOfOrdering, ihl hl, Iter.toList_cons,
        Iter.toList_extendPath, if_pos (by simpa using h.le),
        (List.filter_eq_self (l := r.toList)).mpr fun x hx => by simpa using h.le.trans (hgt x hx).le]
      simp
    · -- the node has the key: it and its right subtree are what is left
      rw [compare_eq_iff_eq.mpr h] at hdir
      rw [Iter.extendPathWithKey, hdir, dirOfOrdering, Iter.toList_cons, Iter.toList_extendPath,
        if_pos (by simp [h]),
        (List.filter_eq_nil_iff (l := l.toList)).mpr fun x hx => by simpa [h] using hlt x hx,
        (List.filter_eq_self (l := r.toList)).mpr fun x hx => by simpa [h] using (hgt x hx).le]
      simp
    · -- the node and its left subtree lie before the key: the walk drops them
      rw [compare_gt_iff_gt.mpr h] at hdir
      rw [Iter.extendPathWithKey, hdir, dirOfOrdering, ihr hr, if_neg (by simpa using h),
        (List.filter_eq_nil_iff (l := l.toList)).mpr fun x hx => by simpa using (hlt x hx).trans h]
      simp

/-- **`iter_range(key)` yields the nodes from `key` on, in order**, on a map sorted by the rank
    `next_node_dir` compares. -/
theorem TreapMap.toList_iterRange {C : TreapMapConfig K Unit V W E} {rank : Unit × K → O}
    (hC : Compares rank C) (m : TreapMap K Unit V W E) (hs : Sorted rank m.root.entries) (key : K) :
    Iter.toList (m.iterRange C key) =
      m.root.toList.filter fun n => decide (rank ((), key) ≤ rank n.treapKey) := by
  rw [TreapMap.iterRange, Iter.toList_extendPathWithKey hC _ hs, Iter.toList_nil, List.append_nil]

end Range

end Mazze.Treap
