import Mazze.Treap.Runs

/-!
# The ordered map a shared-key `TreapMap` stands for

`BTreeMap<Key, (Weight, Value)>`, written as its entries in ascending key order, with the
operations a `TreapMap` over a `SharedKeyTreapMapConfig` is meant to have: `insert` overwrites
or adds, `erase` removes, and `update(k, f, g)` applies `f` to a present entry (removing it,
or replacing it by the entry `f` left, key included) or adds the node `g` makes.
-/

set_option autoImplicit false

namespace Mazze.Treap

/-- `BTreeMap<Key, (Weight, Value)>` as its entries in key order. -/
abbrev OrdMap (K W V : Type) := List (K × W × V)

namespace OrdMap

variable {K W V : Type} [LinearOrder K]

/-- Overwrite the entry of `k`, or add it in key order. -/
def insert : OrdMap K W V → K → W → V → OrdMap K W V
  | [], k, w, v => [(k, w, v)]
  | (k', e) :: m, k, w, v =>
    if k < k' then (k, w, v) :: (k', e) :: m
    else if k = k' then (k, w, v) :: m
    else (k', e) :: insert m k w v

/-- Remove the entry of `k`. -/
def erase (m : OrdMap K W V) (k : K) : OrdMap K W V := m.filter fun e => e.1 != k

/-- `update(k, f, g)` on the model: `f` on a present entry, else the node `g` makes. -/
def update {T Err : Type} (m : OrdMap K W V) (k : K)
    (f : Entry K Unit V W → Entry K Unit V W × Except Err (ApplyOpOutcome T))
    (g : Except Err (Node K Unit V W × T)) : Except Err T × OrdMap K W V :=
  match m.lookup k with
  | some (w, v) =>
    match f ⟨k, v, (), w⟩ with
    | (_, .error err) => (.error err, m)
    | (e, .ok o) =>
      (.ok o.out, if o.deleteItem then m.erase k else (m.erase k).insert e.key e.weight e.value)
  | none =>
    match g with
    | .error err => (.error err, m)
    | .ok (n, out) => (.ok out, m.insert n.key n.weight n.value)

end OrdMap

/-! ## A key change the count gets wrong -/

/-- The model after `insert(1, 10, 1)` and the `update` of key `1` by `moveToKeyTwo`. -/
def movedModel : Except Unit Unit × OrdMap Nat Nat Nat :=
  (OrdMap.insert [] 1 1 10).update 1 moveToKeyTwo (.error ())

/-- After `insert(1, 10, 1)` and an `update` of key `1` that moves the entry to key `2`, the
    treap yields the model's single entry `(2, 1, 10)`, but `len()` is two. -/
theorem len_after_key_change_ne_model :
    ∃ m, keyOneMap.update natMapConfig 1 moveToKeyTwo declineInsert = some (movedModel.1, m) ∧
      (Iter.toList m.iter).map (fun n => (n.key, n.weight, n.value)) = movedModel.2 ∧
      m.len natMapConfig = 2 ∧ movedModel.2.length = 1 := by
  have hmodel : movedModel = (.ok (), [(2, 1, 10)]) := by decide
  have hsome : (keyOneMap.update natMapConfig 1 moveToKeyTwo declineInsert).isSome := by
    decide +kernel
  obtain ⟨⟨r, m⟩, hm⟩ := Option.isSome_iff_exists.mp hsome
  have hview : (keyOneMap.update natMapConfig 1 moveToKeyTwo declineInsert).map
      (fun p => (p.1, (Iter.toList p.2.iter).map (fun n => (n.key, n.weight, n.value)),
        natMapConfig.len p.2.extMap)) = some (.ok (), [(2, 1, 10)], 2) := by
    decide +kernel
  rw [hm, Option.map_some, Option.some.injEq, Prod.mk.injEq, Prod.mk.injEq] at hview
  obtain ⟨hr, hiter, hlen⟩ := hview
  dsimp only at hr hiter hlen
  refine ⟨m, ?_, ?_, hlen, ?_⟩
  · rw [hm, hr, hmodel]
  · rw [hiter, hmodel]
  · rw [hmodel]
    rfl

end Mazze.Treap
