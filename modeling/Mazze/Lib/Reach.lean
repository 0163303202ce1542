import Mathlib

/-!
# Reachability along successor lists

A graph is given by the list of successors of each node, `succ : α → List α`. A graph
search is proved against three notions:

* `Reach succ x y`: `y` is reached from `x` in zero or more steps;
* `ReachAvoiding succ B x y`: the same, with every step landing outside `B`;
* `Closed succ C`: no step leaves `C`.

The two facts that searches need are these. Paths that stay outside a closed set are
exactly the paths that end outside it (`reachAvoiding_of_closed`). A search that stops at
a closed set `C`, at its own seeds and at a set `E` the seeds cannot reach still finds
everything reachable from the seeds outside `C` (`reach_closed_or_reachAvoiding`). A
rank that every step lowers (`Ranked`) is how acyclicity is stated.
-/

set_option autoImplicit false

namespace Reachability

open Relation

variable {α : Type}

/-- `y` is reached from `x` along `succ`, in zero or more steps. -/
abbrev Reach (succ : α → List α) : α → α → Prop :=
  ReflTransGen fun a b => b ∈ succ a

/-- `y` is reached from `x` along `succ` by steps that each land outside `B`. -/
abbrev ReachAvoiding (succ : α → List α) (B : α → Prop) : α → α → Prop :=
  ReflTransGen fun a b => b ∈ succ a ∧ ¬ B b

/-- No step of `succ` leaves `C`. -/
def Closed (succ : α → List α) (C : α → Prop) : Prop :=
  ∀ x, C x → ∀ y ∈ succ x, C y

/-- Every step lowers `rank`: the graph has no cycle. -/
def Ranked (succ : α → List α) (rank : α → Nat) : Prop :=
  ∀ x, ∀ y ∈ succ x, rank y < rank x

variable {succ : α → List α}

theorem ReachAvoiding.reach {B : α → Prop} {x y : α} (h : ReachAvoiding succ B x y) :
    Reach succ x y := by
  induction h with
  | refl => exact ReflTransGen.refl
  | tail _ hbc ih => exact ih.tail hbc.1

/-- The reached set of `x` is `x` with the reached sets of its successors. -/
theorem reach_iff {x y : α} : Reach succ x y ↔ x = y ∨ ∃ z ∈ succ x, Reach succ z y := by
  unfold Reach
  rw [ReflTransGen.cases_head_iff]

theorem reach_of_mem {x z y : α} (hz : z ∈ succ x) (h : Reach succ z y) : Reach succ x y :=
  ReflTransGen.head hz h

theorem Closed.reach {C : α → Prop} (hC : Closed succ C) {x y : α} (hx : C x)
    (h : Reach succ x y) : C y := by
  induction h with
  | refl => exact hx
  | tail _ hbc ih => exact hC _ ih _ hbc

/-- **A path that ends outside a closed set never entered it.** -/
theorem reachAvoiding_of_closed {C : α → Prop} (hC : Closed succ C) {x y : α} (hy : ¬ C y)
    (h : Reach succ x y) : ReachAvoiding succ C x y := by
  induction h using ReflTransGen.head_induction_on with
  | refl => exact ReflTransGen.refl
  | head hab hby ih =>
    -- the step's target `b` reaches `y`, so it is outside `C` as `y` is
    have hb : ¬ C _ := fun hb => hy (hC.reach hb hby)
    exact ReflTransGen.head ⟨hab, hb⟩ ih

/-- **What a search stopped at `B` finds.** Let the blocked set `B` consist of a closed set
    `C`, of the seeds `Q`, and of a set `E` that no seed reaches. Then everything reached
    from a seed is in `C` or reached from some seed by steps outside `B`. The induction is
    on the path; a step into `B` lands in `C` (and stays there), on a seed (and starts
    again from it), or in `E` (which cannot happen). -/
theorem reach_closed_or_reachAvoiding {B C E : α → Prop} {Q : List α} (hC : Closed succ C)
    (hB : ∀ z, B z → C z ∨ E z ∨ z ∈ Q) (hE : ∀ x ∈ Q, ∀ z, E z → ¬ Reach succ x z)
    {x y : α} (hx : x ∈ Q) (h : Reach succ x y) :
    C y ∨ ∃ x' ∈ Q, ReachAvoiding succ B x' y := by
  induction h with
  | refl => exact Or.inr ⟨x, hx, ReflTransGen.refl⟩
  | @tail b c hxb hbc ih =>
    rcases ih with hb | ⟨x', hx', hpath⟩
    · exact Or.inl (hC _ hb _ hbc)
    · by_cases hc : B c
      · rcases hB c hc with hc | hc | hc
        · exact Or.inl hc
        · exact absurd (hxb.tail hbc) (hE x hx c hc)
        · exact Or.inr ⟨c, hc, ReflTransGen.refl⟩
      · exact Or.inr ⟨x', hx', hpath.tail ⟨hbc, hc⟩⟩

/-- **Reachability reads only the edges it can use.** From inside a closed set on which two
    successor functions agree, they reach the same nodes. -/
theorem reach_congr {succ' : α → List α} {C : α → Prop} (hC : Closed succ C)
    (heq : ∀ x, C x → succ' x = succ x) {x y : α} (hx : C x) :
    Reach succ' x y ↔ Reach succ x y := by
  constructor
  · intro h
    induction h with
    | refl => exact ReflTransGen.refl
    | tail _ hbc ih => exact ih.tail (heq _ (hC.reach hx ih) ▸ hbc)
  · intro h
    induction h with
    | refl => exact ReflTransGen.refl
    | tail hxb hbc ih => exact ih.tail ((heq _ (hC.reach hx hxb)).symm ▸ hbc)

/-- **Reachability after a closed set is cut off.** Suppose no step leaves the nodes outside
    `P`, and `succ'` keeps, at each node of `P`, exactly its successors in `P`. Then from a
    node of `P`, `succ'` reaches the nodes of `P` that `succ` reaches. A path of `succ` that
    ends in `P` never left it, so each of its steps is a step of `succ'`. -/
theorem reach_restrict_iff {succ' : α → List α} {P : α → Prop} (hC : Closed succ fun z => ¬ P z)
    (hsucc : ∀ z, P z → ∀ w, w ∈ succ' z ↔ w ∈ succ z ∧ P w) {x y : α} (hx : P x) :
    Reach succ' x y ↔ Reach succ x y ∧ P y := by
  constructor
  · intro h
    induction h with
    | refl => exact ⟨ReflTransGen.refl, hx⟩
    | @tail b c _ hbc ih =>
      obtain ⟨hcb, hc⟩ := (hsucc b ih.2 c).mp hbc
      exact ⟨ih.1.tail hcb, hc⟩
  · rintro ⟨h, hy⟩
    induction h with
    | refl => exact ReflTransGen.refl
    | @tail b c _ hbc ih =>
      -- the step's source is in `P`: no step leaves the nodes outside it
      have hb : P b := Classical.byContradiction fun hb => hC b hb c hbc hy
      exact (ih hb).tail ((hsucc b hb c).mpr ⟨hbc, hy⟩)

theorem Ranked.rank_le {rank : α → Nat} (hr : Ranked succ rank) {x y : α}
    (h : Reach succ x y) : rank y ≤ rank x := by
  induction h with
  | refl => exact Nat.le_refl _
  | tail _ hbc ih => exact Nat.le_trans (Nat.le_of_lt (hr _ _ hbc)) ih

/-- **No cycle through a step.** A successor of `x` does not reach back to `x`. -/
theorem Ranked.not_reach_of_mem {rank : α → Nat} (hr : Ranked succ rank) {x y : α}
    (hy : y ∈ succ x) : ¬ Reach succ y x := fun h =>
  absurd (hr.rank_le h) (Nat.not_le.mpr (hr x y hy))

end Reachability
