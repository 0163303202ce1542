import Mazze.Treap.Map

/-!
# Runs of a `TreapMap`

A run starts from `TreapMap::new` and applies `insert`, `remove` and `update`, the last with
closures that keep the contract `map.rs` and `update.rs` state for them: `update` reports in
its `ApplyOpOutcome` every change it made to the key, the sort key or the weight and changes
nothing when it fails, and `insert` returns a node with the key it was asked for. An `update`
that panics ends the run.
-/

set_option autoImplicit false

namespace Mazze.Treap

variable {K S V W E : Type}

/-- The contract of `update`'s closure. -/
def UpdateHonours {T Err : Type}
    (update : Entry K S V W → Entry K S V W × Except Err (ApplyOpOutcome T)) : Prop :=
  ∀ e, match update e with
    | (e', .ok o) =>
      (o.updateKey = false → e'.key = e.key ∧ e'.sortKey = e.sortKey) ∧
        (o.updateWeight = false → e'.weight = e.weight)
    | (e', .error _) => e' = e

/-- The contract of `insert`'s closure: "the key of the new node must match the key provided
    to the function". -/
def InsertHonours {T Err : Type} (key : K)
    (insert : Stream' UInt64 → Except Err (Node K S V W × T) × Stream' UInt64) : Prop :=
  ∀ rng n out rng', insert rng = (.ok (n, out), rng') → n.key = key

variable (C : TreapMapConfig K S V W E) [DecidableEq W]

/-- The maps a run reaches. -/
inductive Reachable : TreapMap K S V W E → Prop
  | new (rng : Stream' UInt64) : Reachable (TreapMap.new C rng)
  | insert {m : TreapMap K S V W E} (key : K) (value : V) (weight : W) :
      Reachable m → Reachable (m.insert C key value weight).2
  | remove {m : TreapMap K S V W E} (key : K) : Reachable m → Reachable (m.remove C key).2
  | update {m m' : TreapMap K S V W E} {T Err : Type} (key : K)
      (update : Entry K S V W → Entry K S V W × Except Err (ApplyOpOutcome T))
      (insert : Stream' UInt64 → Except Err (Node K S V W × T) × Stream' UInt64)
      (r : Except Err T) :
      Reachable m → UpdateHonours update → InsertHonours key insert →
      m.update C key update insert = some (r, m') → Reachable m'

/-! ## A key change counted twice -/

/-- The shared-key map the counterexamples run on. -/
abbrev natMapConfig : TreapMapConfig Nat Unit Nat Nat Counter := sharedKeyConfig Nat Nat Nat

/-- An `update` closure that moves its entry to key `2` and reports the key change. -/
def moveToKeyTwo (e : Entry Nat Unit Nat Nat) :
    Entry Nat Unit Nat Nat × Except Unit (ApplyOpOutcome Unit) :=
  ({ e with key := 2 }, .ok ⟨(), false, true, false⟩)

/-- An `insert` closure that declines. -/
def declineInsert (rng : Stream' UInt64) :
    Except Unit (Node Nat Unit Nat Nat × Unit) × Stream' UInt64 :=
  (.error (), rng)

/-- The map holding key `1` (value `10`, weight `1`). -/
def keyOneMap : TreapMap Nat Unit Nat Nat Counter :=
  ((TreapMap.new natMapConfig fun _ => 0).insert natMapConfig 1 10 1).2

/-- `update` with a key change: `ApplyOp` reports the node to the `Counter` as changed
    (`+1 - 1`), deletes it, and `TreapMap::update` inserts it again through `insert`, whose
    `InsertOp` counts it as new. The count ends at two with one node in the tree. -/
theorem counter_counts_moved_key_twice :
    ∃ m, Reachable natMapConfig m ∧ natMapConfig.len m.extMap = 2 ∧ m.root.size = 1 := by
  have hone : Reachable natMapConfig keyOneMap := .insert 1 10 1 (.new _)
  have hmove : UpdateHonours moveToKeyTwo := by
    intro e
    simp [moveToKeyTwo]
  have hdecline : InsertHonours 1 declineInsert := by
    intro rng n out rng' h
    simp [declineInsert] at h
  have hsome : (keyOneMap.update natMapConfig 1 moveToKeyTwo declineInsert).isSome := by
    decide +kernel
  obtain ⟨⟨r, m⟩, hm⟩ := Option.isSome_iff_exists.mp hsome
  have hview : (keyOneMap.update natMapConfig 1 moveToKeyTwo declineInsert).map
      (fun p => (natMapConfig.len p.2.extMap, p.2.root.size)) = some (2, 1) := by
    decide +kernel
  rw [hm, Option.map_some, Option.some.injEq, Prod.mk.injEq] at hview
  exact ⟨m, .update 1 moveToKeyTwo declineInsert r hone hmove hdecline hm, hview⟩

end Mazze.Treap
