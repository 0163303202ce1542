import Mathlib
import Mazze.Treap.MapRefinement
import Mazze.TxPool.NoncePool

/-!
# The nonce pool over its runs

A `NoncePool` is a shared-key treap, so `Treap.MapRefinement` reads it as an ordered map. What
the pool adds is what its closures write: every entry sits under its transaction's nonce, with
the weight `from_tx_info` gives it (`EntryOk`). `NoncePoolMap.Inv` puts that together with the
treap's own order and sums, and every pool that `new`, `insert`, `mark_packed` and `remove`
reach keeps it (`NoncePool.Reachable.inv`); `insert` and `mark_packed` never panic on such a
pool.

`NoncePoolWeight::consolidate` returns its right side when the left is empty; that is what the
fieldwise sum gives too (`NoncePoolWeight.add_eq`), so the weights commute and the searches of
`Treap.SearchSpec` and `Treap.SearchWalk` apply. Over the nodes of a pool, the accumulated
weight counts them, counts and costs the unpacked ones, and reaches a nonce exactly when an
unpacked one at or above it is among them (`accumulate_size` and the three after it).
-/

set_option autoImplicit false

namespace Mazze.TxPool

open Mazze.Treap Mazze.Packing PackingPoolTransaction

variable {TX Sender Hash : Type} [PoolTransaction TX Sender Hash]

/-! ## Weights -/

namespace NoncePoolWeight

theorem zero_def : (0 : NoncePoolWeight) = ⟨0, 0, 0, none⟩ := rfl

@[simp] theorem consolidateMaxNonce_none_left (b : Option Nat) : consolidateMaxNonce none b = b := by
  cases b <;> rfl

@[simp] theorem consolidateMaxNonce_none_right (a : Option Nat) :
    consolidateMaxNonce a none = a := by
  cases a <;> rfl

theorem consolidateMaxNonce_comm (a b : Option Nat) :
    consolidateMaxNonce a b = consolidateMaxNonce b a := by
  cases a <;> cases b <;> simp [consolidateMaxNonce, max_comm]

theorem consolidateMaxNonce_assoc (a b c : Option Nat) :
    consolidateMaxNonce (consolidateMaxNonce a b) c =
      consolidateMaxNonce a (consolidateMaxNonce b c) := by
  cases a <;> cases b <;> cases c <;> simp [consolidateMaxNonce, max_assoc]

/-- The largest nonce of a consolidated weight reaches `n` when one side's does. -/
@[simp] theorem any_consolidateMaxNonce (a b : Option Nat) (n : Nat) :
    ((consolidateMaxNonce a b).map fun x => decide (x ≥ n)).getD false =
      (((a.map fun x => decide (x ≥ n)).getD false) || (b.map fun x => decide (x ≥ n)).getD false) := by
  cases a <;> cases b <;> simp [consolidateMaxNonce]

/-- **`consolidate` is the fieldwise sum.** Its shortcut for an empty left side returns the
    right side, which is what the sum gives too. -/
theorem add_eq (a b : NoncePoolWeight) :
    a + b = ⟨a.unpackedSize + b.unpackedSize, a.cost + b.cost, a.size + b.size,
      consolidateMaxNonce a.maxUnpackdNonce b.maxUnpackdNonce⟩ := by
  change consolidate a b = _
  unfold consolidate
  split
  · rename_i h
    subst h
    simp [zero_def]
  · rfl

@[simp] theorem add_unpackedSize (a b : NoncePoolWeight) :
    (a + b).unpackedSize = a.unpackedSize + b.unpackedSize := by rw [add_eq]

@[simp] theorem add_cost (a b : NoncePoolWeight) : (a + b).cost = a.cost + b.cost := by
  rw [add_eq]

@[simp] theorem add_size (a b : NoncePoolWeight) : (a + b).size = a.size + b.size := by
  rw [add_eq]

@[simp] theorem add_maxUnpackdNonce (a b : NoncePoolWeight) :
    (a + b).maxUnpackdNonce = consolidateMaxNonce a.maxUnpackdNonce b.maxUnpackdNonce := by
  rw [add_eq]

theorem ext_iff' {a b : NoncePoolWeight} :
    a = b ↔ a.unpackedSize = b.unpackedSize ∧ a.cost = b.cost ∧ a.size = b.size ∧
      a.maxUnpackdNonce = b.maxUnpackdNonce := by
  cases a
  cases b
  simp

theorem add_assoc' (a b c : NoncePoolWeight) : a + b + c = a + (b + c) := by
  rw [ext_iff']
  simp [Nat.add_assoc, consolidateMaxNonce_assoc]

theorem add_comm' (a b : NoncePoolWeight) : a + b = b + a := by
  rw [ext_iff']
  simp [Nat.add_comm, consolidateMaxNonce_comm]

@[simp] theorem size_fromTxInfo (info : TxWithReadyInfo TX) : (fromTxInfo info).size = 1 := by
  unfold fromTxInfo
  split <;> rfl

@[simp] theorem cost_fromTxInfo (info : TxWithReadyInfo TX) : (fromTxInfo info).cost = info.txCost := by
  unfold fromTxInfo
  split <;> rfl

@[simp] theorem unpackedSize_fromTxInfo (info : TxWithReadyInfo TX) :
    (fromTxInfo info).unpackedSize = if info.packed then 0 else 1 := by
  unfold fromTxInfo
  split <;> simp [*]

@[simp] theorem maxUnpackdNonce_fromTxInfo (info : TxWithReadyInfo TX) :
    (fromTxInfo info).maxUnpackdNonce =
      if info.packed then none else some (nonce info.transaction) := by
  unfold fromTxInfo
  split <;> simp [*]

end NoncePoolWeight

open NoncePoolWeight

theorem noncePoolConfig_consolidate (a b : NoncePoolWeight) :
    (noncePoolConfig TX).consolidate a b = a + b := rfl

theorem noncePoolConfig_empty : (noncePoolConfig TX).empty = 0 := rfl

theorem noncePoolConfig_assoc (a b c : NoncePoolWeight) :
    (noncePoolConfig TX).consolidate ((noncePoolConfig TX).consolidate a b) c =
      (noncePoolConfig TX).consolidate a ((noncePoolConfig TX).consolidate b c) :=
  add_assoc' a b c

theorem noncePoolConfig_comm (a b : NoncePoolWeight) :
    (noncePoolConfig TX).consolidate a b = (noncePoolConfig TX).consolidate b a :=
  add_comm' a b

/-! ## Entries -/

/-- A pool node of the treap. -/
abbrev PoolNode (TX : Type) := Node Nat Unit (TxWithReadyInfo TX) NoncePoolWeight

/-- An entry is stored under its transaction's nonce, with the weight `from_tx_info` gives. -/
def EntryOk (e : Nat × NoncePoolWeight × TxWithReadyInfo TX) : Prop :=
  e.1 = nonce e.2.2.transaction ∧ e.2.1 = fromTxInfo e.2.2

/-- A node of the pool is stored as `EntryOk` asks. -/
def NodeOk (x : PoolNode TX) : Prop :=
  x.key = nonce x.value.transaction ∧ x.weight = fromTxInfo x.value

section Accumulate

variable {ys : List (PoolNode TX)} (hys : ∀ x ∈ ys, NodeOk x)
include hys

/-- The accumulated weight of pool nodes counts them. -/
theorem accumulate_size (base : NoncePoolWeight) :
    (accumulate (noncePoolConfig TX) base ys).size = base.size + ys.length := by
  induction ys generalizing base with
  | nil => rfl
  | cons x ys ih =>
    rw [accumulate_cons, ih (fun y hy => hys y (List.mem_cons_of_mem x hy)),
      noncePoolConfig_consolidate, add_size, (hys x List.mem_cons_self).2]
    simp
    omega

/-- The accumulated weight of pool nodes counts the unpacked ones. -/
theorem accumulate_unpackedSize (base : NoncePoolWeight) :
    (accumulate (noncePoolConfig TX) base ys).unpackedSize =
      base.unpackedSize + (ys.filter fun x => !x.value.packed).length := by
  induction ys generalizing base with
  | nil => rfl
  | cons x ys ih =>
    rw [accumulate_cons, ih (fun y hy => hys y (List.mem_cons_of_mem x hy)),
      noncePoolConfig_consolidate, add_unpackedSize, (hys x List.mem_cons_self).2]
    cases h : x.value.packed with
    | false =>
      simp [h]
      omega
    | true => simp [h]

/-- The accumulated weight of pool nodes sums their costs. -/
theorem accumulate_cost (base : NoncePoolWeight) :
    (accumulate (noncePoolConfig TX) base ys).cost =
      base.cost + (ys.map fun x => x.value.txCost).sum := by
  induction ys generalizing base with
  | nil => simp [accumulate]
  | cons x ys ih =>
    rw [accumulate_cons, ih (fun y hy => hys y (List.mem_cons_of_mem x hy)),
      noncePoolConfig_consolidate, add_cost, (hys x List.mem_cons_self).2]
    simp
    omega

/-- The accumulated weight of pool nodes reaches nonce `n` exactly when an unpacked node at or
    above `n` is among them. -/
theorem accumulate_reaches (base : NoncePoolWeight) (n : Nat) :
    (((accumulate (noncePoolConfig TX) base ys).maxUnpackdNonce.map fun x => decide (x ≥ n)).getD
      false) =
      ((base.maxUnpackdNonce.map fun x => decide (x ≥ n)).getD false ||
        ys.any fun x => !x.value.packed && decide (x.key ≥ n)) := by
  induction ys generalizing base with
  | nil => simp [accumulate]
  | cons x ys ih =>
    rw [accumulate_cons, ih (fun y hy => hys y (List.mem_cons_of_mem x hy)),
      noncePoolConfig_consolidate, add_maxUnpackdNonce, any_consolidateMaxNonce,
      (hys x List.mem_cons_self).2, maxUnpackdNonce_fromTxInfo, ← (hys x List.mem_cons_self).1]
    cases h : x.value.packed <;> simp [h, Bool.or_assoc]

end Accumulate

/-! ## The invariant -/

namespace NoncePoolMap

/-- The pool's map is a sorted ordered map with right sums, whose entries are stored as
    `EntryOk` asks. -/
structure Inv (m : NoncePoolMap TX) : Prop where
  sorted : m.model.Sorted
  sums : SumsOk (noncePoolConfig TX) m.root
  entries : ∀ e ∈ m.model, EntryOk e

theorem model_eq_map (t : Tree Nat Unit (TxWithReadyInfo TX) NoncePoolWeight) :
    t.model = t.toList.map fun x => (x.key, x.weight, x.value) := by
  simp only [Tree.model, Tree.entries, List.map_map]
  rfl

/-- The nodes of an `Inv` map, in order, have strictly increasing keys. -/
theorem Inv.nodes_sorted {m : NoncePoolMap TX} (h : m.Inv) :
    m.root.toList.Pairwise fun x y => x.key < y.key := by
  have hs := h.sorted
  rw [TreapMap.model, model_eq_map, OrdMap.Sorted, List.pairwise_map] at hs
  exact hs

/-- Every node of an `Inv` map is stored as `NodeOk` asks. -/
theorem Inv.nodeOk {m : NoncePoolMap TX} (h : m.Inv) {x : PoolNode TX} (hx : x ∈ m.root.toList) :
    NodeOk x :=
  h.entries (x.key, x.weight, x.value) (by
    rw [TreapMap.model, model_eq_map]
    exact List.mem_map_of_mem hx)

theorem inv_new (rng : Stream' UInt64) : NoncePoolMap.Inv (TreapMap.new (noncePoolConfig TX) rng) where
  sorted := List.Pairwise.nil
  sums := trivial
  entries := fun _ h => by cases h

/-- **`update` keeps the invariant.** With closures that keep their contracts and write
    entries as `EntryOk` asks, `update` does not panic and keeps `Inv`. -/
theorem Inv.update {T Err : Type} {m : NoncePoolMap TX} (hm : m.Inv) {k : Nat}
    {update : Entry Nat Unit (TxWithReadyInfo TX) NoncePoolWeight →
      Entry Nat Unit (TxWithReadyInfo TX) NoncePoolWeight × Except Err (ApplyOpOutcome T)}
    {insert : Stream' UInt64 →
      Except Err (Node Nat Unit (TxWithReadyInfo TX) NoncePoolWeight × T) × Stream' UInt64}
    (hupd : UpdateHonours update) (hins : InsertHonours k insert)
    (hf : ∀ w v e o, m.model.lookup k = some (w, v) → update ⟨k, v, (), w⟩ = (e, .ok o) →
      EntryOk (e.key, e.weight, e.value))
    (hg : ∀ n out, (insert m.rng).1 = .ok (n, out) → EntryOk (n.key, n.weight, n.value)) :
    ∃ r m', m.update (noncePoolConfig TX) k update insert = some (r, m') ∧ NoncePoolMap.Inv m' := by
  obtain ⟨m', hm', hmodel⟩ := TreapMap.update_model hm.sorted hupd hins
  refine ⟨_, m', hm', ?_, ?_, ?_⟩
  · rw [hmodel]
    exact hm.sorted.update k update _
  · exact (TreapMap.update_treeOk (Q := fun _ => True) ⟨hm.sums, fun _ _ => trivial⟩
      (fun _ _ => trivial) hupd.refreshesOnChange (fun _ _ _ _ _ => trivial) hm').sums
  · rw [hmodel]
    exact OrdMap.forall_update hm.entries k update _ hf hg

theorem Inv.remove {m : NoncePoolMap TX} (hm : m.Inv) (k : Nat) :
    NoncePoolMap.Inv (m.remove (noncePoolConfig TX) k).2 where
  sorted := by
    rw [(TreapMap.remove_model hm.sorted k).2]
    exact hm.sorted.erase k
  sums := TreapMap.remove_sumsOk hm.sums k
  entries := by
    rw [(TreapMap.remove_model hm.sorted k).2]
    exact fun e he => hm.entries e (OrdMap.mem_erase he)

/-- `update` under a map of its result that keeps the map, as `insert` and `mark_packed`
    call it. -/
theorem Inv.update_map {α T Err : Type} {m : NoncePoolMap TX} (hm : m.Inv) {k : Nat}
    {update : Entry Nat Unit (TxWithReadyInfo TX) NoncePoolWeight →
      Entry Nat Unit (TxWithReadyInfo TX) NoncePoolWeight × Except Err (ApplyOpOutcome T)}
    {insert : Stream' UInt64 →
      Except Err (Node Nat Unit (TxWithReadyInfo TX) NoncePoolWeight × T) × Stream' UInt64}
    (g : Except Err T × NoncePoolMap TX → α × NoncePoolMap TX) (hg : ∀ x, (g x).2 = x.2)
    (hupd : UpdateHonours update) (hins : InsertHonours k insert)
    (hf : ∀ w v e o, m.model.lookup k = some (w, v) → update ⟨k, v, (), w⟩ = (e, .ok o) →
      EntryOk (e.key, e.weight, e.value))
    (hi : ∀ n out, (insert m.rng).1 = .ok (n, out) → EntryOk (n.key, n.weight, n.value)) :
    ∃ r m', (m.update (noncePoolConfig TX) k update insert).map g = some (r, m') ∧
      NoncePoolMap.Inv m' := by
  obtain ⟨r, m', hm', hinv⟩ := hm.update hupd hins hf hi
  refine ⟨(g (r, m')).1, m', ?_, hinv⟩
  rw [hm', Option.map_some]
  exact congrArg some (Prod.ext rfl (hg (r, m')))

/-- `insert` keeps the invariant and never panics. -/
theorem Inv.insert {m : NoncePoolMap TX} (hm : m.Inv) (tx : TxWithReadyInfo TX) (force : Bool) :
    ∃ r m', m.insert tx force = some (r, m') ∧ NoncePoolMap.Inv m' := by
  unfold NoncePoolMap.insert
  dsimp only
  refine hm.update_map _ (fun _ => rfl) (fun e => ?_) (fun rng n out rng' h => ?_)
    (fun w v e o hl h => ?_) (fun n out h => ?_)
  · split_ifs <;> simp
  · obtain ⟨⟨rfl, -⟩, -⟩ := Prod.mk.inj h
    rfl
  · dsimp only at h
    split at h
    · -- the new transaction replaces the old one
      obtain ⟨rfl, -⟩ := Prod.mk.inj h
      exact ⟨rfl, rfl⟩
    · -- the old entry stays
      obtain ⟨rfl, -⟩ := Prod.mk.inj h
      exact hm.entries _ (AssocList.mem_of_lookup hl)
  · obtain ⟨rfl, -⟩ := Prod.mk.inj (Except.ok.inj h)
    exact ⟨rfl, rfl⟩

/-- `mark_packed` keeps the invariant and never panics. -/
theorem Inv.markPacked {m : NoncePoolMap TX} (hm : m.Inv) (k : Nat) (packed : Bool) :
    ∃ r m', m.markPacked k packed = some (r, m') ∧ NoncePoolMap.Inv m' := by
  unfold NoncePoolMap.markPacked
  dsimp only
  refine hm.update_map _ (fun _ => rfl) (fun e => ?_) (fun rng n out rng' h => ?_)
    (fun w v e o hl h => ?_) (fun n out h => ?_)
  · split_ifs <;> simp
  · cases h
  · dsimp only at h
    split at h
    · cases h
    · -- the flag changes, the nonce stays
      obtain ⟨rfl, -⟩ := Prod.mk.inj h
      exact ⟨(hm.entries _ (AssocList.mem_of_lookup hl)).1, rfl⟩
  · cases h

end NoncePoolMap

/-! ## Runs -/

namespace NoncePool

/-- The pools that `new`, `insert`, `mark_packed` and `remove` reach. -/
inductive Reachable : NoncePool TX → Prop
  | new (rng : Stream' UInt64) : Reachable (NoncePool.new rng)
  | insert {p p' : NoncePool TX} {r : InsertResult TX} (tx : TxWithReadyInfo TX) (force : Bool) :
      Reachable p → p.insert tx force = some (r, p') → Reachable p'
  | markPacked {p p' : NoncePool TX} {r : Bool} (nonce : Nat) (packed : Bool) :
      Reachable p → p.markPacked nonce packed = some (r, p') → Reachable p'
  | remove {p : NoncePool TX} (nonce : Nat) : Reachable p → Reachable (p.remove nonce).2

/-- **Every reachable pool keeps the invariant**, by induction on the run. -/
theorem Reachable.inv {p : NoncePool TX} (hp : p.Reachable) : p.map.Inv := by
  induction hp with
  | new rng => exact NoncePoolMap.inv_new rng
  | insert tx force _ h ih =>
    obtain ⟨r, m', hm', hinv⟩ := ih.insert tx force
    unfold NoncePool.insert at h
    rw [hm'] at h
    obtain ⟨-, rfl⟩ := Prod.mk.inj (Option.some.inj h)
    exact hinv
  | markPacked nonce packed _ h ih =>
    obtain ⟨r, m', hm', hinv⟩ := ih.markPacked nonce packed
    unfold NoncePool.markPacked at h
    rw [hm'] at h
    obtain ⟨-, rfl⟩ := Prod.mk.inj (Option.some.inj h)
    exact hinv
  | remove nonce _ ih => exact ih.remove nonce

/-- The pool after `insert` (without `force`) of each transaction in turn, or `none` once one of
    them panics. -/
def insertAll (p : NoncePool TX) : List (TxWithReadyInfo TX) → Option (NoncePool TX)
  | [] => some p
  | tx :: txs => (p.insert tx false).bind fun q => q.2.insertAll txs

/-- A run of inserts that does not panic ends at a pool a run reaches. -/
theorem Reachable.insertAll {p p' : NoncePool TX} (hp : p.Reachable) (txs : List (TxWithReadyInfo TX))
    (h : p.insertAll txs = some p') : p'.Reachable := by
  induction txs generalizing p with
  | nil =>
    cases h
    exact hp
  | cons tx txs ih =>
    obtain ⟨⟨r, q⟩, hq, hrest⟩ := Option.bind_eq_some_iff.mp h
    exact ih (.insert tx false hp hq) hrest

/-- `get_tx_by_nonce` reads the ordered map. -/
theorem getTxByNonce_eq {p : NoncePool TX} (hp : p.map.Inv) (k : Nat) :
    p.getTxByNonce k = (p.map.model.lookup k).map Prod.snd :=
  TreapMap.get_model hp.sorted k

end NoncePool

end Mazze.TxPool
