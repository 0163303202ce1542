import Mathlib

/-!
# Binary trees with a payload at every node

The shape of a pointer tree `Option<Box<Node>>` whose nodes own their two children. The
in-order list `toList` is what a search tree stores; `Forall p` says that `p` holds at every
node, which is how search-tree and heap orders are stated node by node.
-/

set_option autoImplicit false

/-- A binary tree: a vacant slot, or a node with its payload and two subtrees. -/
inductive BinTree (α : Type) where
  | nil
  | node (a : α) (l r : BinTree α)
  deriving Repr, DecidableEq

namespace BinTree

variable {α : Type}

/-- The number of nodes. -/
def size : BinTree α → Nat
  | nil => 0
  | node _ l r => l.size + r.size + 1

/-- The in-order list of payloads. -/
def toList : BinTree α → List α
  | nil => []
  | node a l r => l.toList ++ a :: r.toList

/-- `p` holds at every node. -/
def Forall (p : α → Prop) : BinTree α → Prop
  | nil => True
  | node a l r => p a ∧ l.Forall p ∧ r.Forall p

instance decForall (p : α → Prop) [DecidablePred p] : ∀ t : BinTree α, Decidable (t.Forall p)
  | nil => isTrue trivial
  | node a l r =>
    have := decForall p l
    have := decForall p r
    inferInstanceAs (Decidable (p a ∧ l.Forall p ∧ r.Forall p))

@[simp] theorem size_nil : (nil : BinTree α).size = 0 := rfl

@[simp] theorem size_node (a : α) (l r : BinTree α) :
    (node a l r).size = l.size + r.size + 1 := rfl

@[simp] theorem toList_nil : (nil : BinTree α).toList = [] := rfl

@[simp] theorem toList_node (a : α) (l r : BinTree α) :
    (node a l r).toList = l.toList ++ a :: r.toList := rfl

@[simp] theorem forall_nil (p : α → Prop) : (nil : BinTree α).Forall p := trivial

@[simp] theorem forall_node (p : α → Prop) (a : α) (l r : BinTree α) :
    (node a l r).Forall p ↔ p a ∧ l.Forall p ∧ r.Forall p := Iff.rfl

@[simp] theorem length_toList (t : BinTree α) : t.toList.length = t.size := by
  induction t with
  | nil => rfl
  | node a l r ihl ihr => simp [ihl, ihr]; omega

/-- `Forall` is a statement about the in-order list. -/
theorem forall_iff_toList (p : α → Prop) (t : BinTree α) : t.Forall p ↔ ∀ a ∈ t.toList, p a := by
  induction t with
  | nil => simp
  | node a l r ihl ihr =>
    simp only [forall_node, toList_node, List.mem_append, List.mem_cons, ihl, ihr]
    constructor
    · rintro ⟨ha, hl, hr⟩ b (hb | rfl | hb)
      exacts [hl b hb, ha, hr b hb]
    · intro h
      exact ⟨h a (.inr (.inl rfl)), fun b hb => h b (.inl hb), fun b hb => h b (.inr (.inr hb))⟩

theorem Forall.imp {p q : α → Prop} (h : ∀ a, p a → q a) {t : BinTree α} (ht : t.Forall p) :
    t.Forall q := by
  rw [forall_iff_toList] at ht ⊢
  exact fun a ha => h a (ht a ha)

end BinTree
