import Mathlib
import Mazze.Lib.Loop
import Mazze.Lib.Reach

/-!
# Breadth-first search with a seen set and a stop test

This is the search that graph code writes out by hand, as one function. It keeps a FIFO
queue and a set of nodes marked seen when they are queued. A test `stop` names the nodes
that are never queued. Each turn pops the front node, records it, and offers its
successors in order. A successor that is neither stopped nor yet seen is marked and
queued (`offer`). The loop is `Loop.run` of `step`.

`search_spec` is what a caller needs. Start from a seen set `V₀` and a queue `Q₀` that it
contains. Then enough fuel returns the popped nodes, each once. They are exactly the
nodes reached from `Q₀` by steps that avoid both `stop` and `V₀`. The final seen set is
`V₀` together with them. The invariant (`Invariant`) is the textbook one. Completeness
follows from the popped nodes being closed under offered steps, by induction on the path.
Termination is measured against a finite set `U` that the successors never leave.
-/

set_option autoImplicit false

namespace Bfs

open Reachability

variable {α : Type} [DecidableEq α]

/-- The state of a search: the queue, the nodes marked seen, and the nodes popped so far. -/
structure State (α : Type) where
  queue : List α
  seen : Finset α
  out : List α

/-- Offer `y` to the search: unless `stop y` holds or `y` is already seen, mark it seen and
    queue it. -/
def offer (stop : α → Bool) (acc : Finset α × List α) (y : α) : Finset α × List α :=
  if stop y = false ∧ y ∉ acc.1 then (insert y acc.1, acc.2 ++ [y]) else acc

/-- Offer each of `ys`, in order. -/
def offerAll (stop : α → Bool) (acc : Finset α × List α) (ys : List α) : Finset α × List α :=
  ys.foldl (offer stop) acc

/-- One turn: pop the front node, record it, and offer its successors. -/
def step (succ : α → List α) (stop : α → Bool) :
    State α → Loop.LoopStep (Finset α × List α) (State α)
  | ⟨[], seen, out⟩ => .done (seen, out)
  | ⟨x :: queue, seen, out⟩ =>
    let acc := offerAll stop (seen, queue) (succ x)
    .next ⟨acc.2, acc.1, out ++ [x]⟩

/-- The search, run for at most `fuel` turns: the final seen set and the popped nodes. -/
def search (succ : α → List α) (stop : α → Bool) (fuel : Nat) (st : State α) :
    Option (Finset α × List α) :=
  Loop.run (step succ stop) fuel st

/-! ## 1. Offering -/

/-- **What offering does.** The newly queued nodes are the offered ones that are neither
    stopped nor seen, each once, and they are marked seen. -/
theorem offerAll_spec (stop : α → Bool) (ys : List α) (seen : Finset α) (queue : List α) :
    ∃ fresh : List α,
      offerAll stop (seen, queue) ys = (seen ∪ fresh.toFinset, queue ++ fresh) ∧
      fresh.Nodup ∧ ∀ y, y ∈ fresh ↔ y ∈ ys ∧ stop y = false ∧ y ∉ seen := by
  induction ys generalizing seen queue with
  | nil => exact ⟨[], by simp [offerAll], List.nodup_nil, by simp⟩
  | cons y ys ih =>
    by_cases hy : stop y = false ∧ y ∉ seen
    · -- `y` is queued; the rest is offered against the enlarged seen set
      have hstep : offerAll stop (seen, queue) (y :: ys) =
          offerAll stop (insert y seen, queue ++ [y]) ys := by
        simp [offerAll, offer, hy]
      obtain ⟨fresh, heq, hnd, hmem⟩ := ih (insert y seen) (queue ++ [y])
      refine ⟨y :: fresh, ?_, ?_, ?_⟩
      · rw [hstep, heq]
        simp [Finset.insert_union, Finset.union_insert]
      · exact List.nodup_cons.mpr ⟨fun h => ((hmem y).1 h).2.2 (Finset.mem_insert_self _ _), hnd⟩
      · intro z
        rw [List.mem_cons, hmem z, List.mem_cons, Finset.mem_insert]
        constructor
        · rintro (rfl | ⟨hz, hs, hn⟩)
          · exact ⟨Or.inl rfl, hy.1, hy.2⟩
          · exact ⟨Or.inr hz, hs, fun h => hn (Or.inr h)⟩
        · rintro ⟨rfl | hz, hs, hn⟩
          · exact Or.inl rfl
          · by_cases hzy : z = y
            · exact Or.inl hzy
            · exact Or.inr ⟨hz, hs, fun h => h.elim hzy hn⟩
    · -- `y` is stopped or seen and the state does not move
      have hstep : offerAll stop (seen, queue) (y :: ys) = offerAll stop (seen, queue) ys := by
        simp [offerAll, offer, hy]
      obtain ⟨fresh, heq, hnd, hmem⟩ := ih seen queue
      refine ⟨fresh, hstep.trans heq, hnd, fun z => ?_⟩
      rw [hmem z, List.mem_cons]
      constructor
      · rintro ⟨hz, hs, hn⟩
        exact ⟨Or.inr hz, hs, hn⟩
      · rintro ⟨rfl | hz, hs, hn⟩
        · exact absurd ⟨hs, hn⟩ hy
        · exact ⟨hz, hs, hn⟩

/-! ## 2. The invariant -/

/-- The nodes a search started with the seen set `V₀` never queues again: the stopped ones
    and those of `V₀`. -/
def Blocked (stop : α → Bool) (V₀ : Finset α) (y : α) : Prop := stop y = true ∨ y ∈ V₀

variable {succ : α → List α} {stop : α → Bool} {Q₀ : List α} {V₀ : Finset α}

/-- The invariant of a search started from the queue `Q₀` and the seen set `V₀`: the seen
    set is `V₀` with what was popped or queued, nothing is popped or queued twice,
    everything popped or queued is reached from `Q₀` avoiding blocked nodes, every
    successor of a popped node is stopped or seen, and every seed is popped or queued. -/
structure Invariant (succ : α → List α) (stop : α → Bool) (Q₀ : List α) (V₀ : Finset α)
    (st : State α) : Prop where
  seen_iff : ∀ y, y ∈ st.seen ↔ y ∈ V₀ ∨ y ∈ st.out ∨ y ∈ st.queue
  nodup : (st.out ++ st.queue).Nodup
  sound : ∀ y ∈ st.out ++ st.queue, ∃ x ∈ Q₀, ReachAvoiding succ (Blocked stop V₀) x y
  closed : ∀ x ∈ st.out, ∀ y ∈ succ x, stop y = true ∨ y ∈ st.seen
  seeds : ∀ x ∈ Q₀, x ∈ st.out ∨ x ∈ st.queue

omit [DecidableEq α] in
theorem Invariant.init (hQ : ∀ x ∈ Q₀, x ∈ V₀) (hnd : Q₀.Nodup) :
    Invariant succ stop Q₀ V₀ ⟨Q₀, V₀, []⟩ where
  seen_iff y := by
    constructor
    · exact Or.inl
    · rintro (h | h | h)
      · exact h
      · simp at h
      · exact hQ y h
  nodup := by simpa using hnd
  sound y hy := ⟨y, by simpa using hy, Relation.ReflTransGen.refl⟩
  closed x hx := by simp at hx
  seeds x hx := Or.inr hx

/-- **The step lemma.** One turn keeps the invariant. -/
theorem Invariant.next {st st' : State α} (h : Invariant succ stop Q₀ V₀ st)
    (hs : step succ stop st = .next st') : Invariant succ stop Q₀ V₀ st' := by
  obtain ⟨queue, seen, out⟩ := st
  cases queue with
  | nil => simp [step] at hs
  | cons x queue =>
    obtain ⟨fresh, heq, hnd, hmem⟩ := offerAll_spec stop (succ x) seen queue
    simp only [step, heq, Loop.LoopStep.next.injEq] at hs
    subst hs
    -- every fresh node is outside the old seen set, which holds `V₀`, the popped nodes and
    -- the queue
    have hfresh : ∀ y ∈ fresh, y ∉ seen := fun y hy => ((hmem y).1 hy).2.2
    have hV : ∀ y, y ∈ V₀ → y ∈ seen := fun y hy => (h.seen_iff y).2 (Or.inl hy)
    constructor
    · intro y
      have := h.seen_iff y
      simp only [List.mem_cons] at this
      simp only [Finset.mem_union, List.mem_toFinset, List.mem_append, List.mem_singleton, this]
      tauto
    · have hold := h.nodup
      have hdisj : ∀ y ∈ out ++ x :: queue, y ∉ fresh := fun y hy hf =>
        hfresh y hf ((h.seen_iff y).2 (Or.inr (List.mem_append.mp hy)))
      have : (out ++ x :: queue ++ fresh).Nodup :=
        List.nodup_append.mpr ⟨hold, hnd, fun a ha b hb hab => hdisj a ha (hab ▸ hb)⟩
      simpa using this
    · intro y hy
      simp only [List.mem_append, List.mem_singleton] at hy
      rcases hy with (hy | rfl) | hy | hy
      · exact h.sound y (by simp [hy])
      · exact h.sound y (by simp)
      · exact h.sound y (by simp [hy])
      · -- a fresh node is one step on from `x`, and is not blocked
        obtain ⟨x₀, hx₀, hpath⟩ := h.sound x (by simp)
        obtain ⟨hy, hstop, hseen⟩ := (hmem y).1 hy
        refine ⟨x₀, hx₀, hpath.tail ⟨hy, ?_⟩⟩
        rintro (h' | h')
        · simp [hstop] at h'
        · exact hseen (hV y h')
    · intro z hz y hy
      simp only [List.mem_append, List.mem_singleton] at hz
      rcases hz with hz | rfl
      · rcases h.closed z hz y hy with h' | h'
        · exact Or.inl h'
        · exact Or.inr (Finset.mem_union_left _ h')
      · -- the popped node's successors were all offered
        by_cases hstop : stop y = true
        · exact Or.inl hstop
        · by_cases hseen : y ∈ seen
          · exact Or.inr (Finset.mem_union_left _ hseen)
          · exact Or.inr (Finset.mem_union_right _
              (List.mem_toFinset.mpr ((hmem y).2 ⟨hy, by simpa using hstop, hseen⟩)))
    · intro x₀ hx₀
      rcases h.seeds x₀ hx₀ with h' | h'
      · exact Or.inl (List.mem_append_left _ h')
      · rcases List.mem_cons.mp h' with rfl | h'
        · exact Or.inl (by simp)
        · exact Or.inr (List.mem_append_left _ h')

/-- What a finished search returns: the popped nodes, each once; they are exactly the
    nodes reached from `Q₀` avoiding blocked nodes; and the seen set is `V₀` with them. -/
def Post (succ : α → List α) (stop : α → Bool) (Q₀ : List α) (V₀ : Finset α)
    (r : Finset α × List α) : Prop :=
  r.2.Nodup ∧ (∀ y, y ∈ r.2 ↔ ∃ x ∈ Q₀, ReachAvoiding succ (Blocked stop V₀) x y) ∧
    ∀ y, y ∈ r.1 ↔ y ∈ V₀ ∨ y ∈ r.2

/-- **The exit lemma.** With the queue empty the invariant gives the result. Completeness
    is by induction on the path: its first node is a popped seed, and each later node is a
    successor of a popped node that is neither stopped nor in `V₀`, hence seen, hence
    popped. -/
theorem Invariant.post {st : State α} {r : Finset α × List α}
    (h : Invariant succ stop Q₀ V₀ st) (hs : step succ stop st = .done r) :
    Post succ stop Q₀ V₀ r := by
  obtain ⟨queue, seen, out⟩ := st
  cases queue with
  | cons x queue => simp [step] at hs
  | nil =>
    simp only [step, Loop.LoopStep.done.injEq] at hs
    subst hs
    refine ⟨by simpa using h.nodup, fun y => ⟨fun hy => h.sound y (by simpa using hy), ?_⟩,
      fun y => by simpa using h.seen_iff y⟩
    rintro ⟨x, hx, hpath⟩
    induction hpath with
    | refl => simpa using h.seeds x hx
    | @tail b c _ hbc ih =>
      obtain ⟨hbc, hblocked⟩ := hbc
      rcases h.closed b ih c hbc with hstop | hseen
      · exact absurd (Or.inl hstop) hblocked
      · rcases (h.seen_iff c).1 hseen with hV | hout | hq
        · exact absurd (Or.inr hV) hblocked
        · exact hout
        · simp at hq

/-! ## 3. Termination and the search's specification -/

/-- The measure: twice the unseen nodes of `U`, plus the queue. A turn pops one node and
    moves each node it queues from the first part to the second. -/
def measure (U : Finset α) (st : State α) : Nat := 2 * (U \ st.seen).card + st.queue.length

/-- **A turn lowers the measure.** `U` is closed under `succ` and holds the queue. -/
theorem measure_step {U : Finset α} (hU : ∀ x ∈ U, ∀ y ∈ succ x, y ∈ U) {st st' : State α}
    (hq : ∀ x ∈ st.queue, x ∈ U) (hs : step succ stop st = .next st') :
    (∀ x ∈ st'.queue, x ∈ U) ∧ measure U st' < measure U st := by
  obtain ⟨queue, seen, out⟩ := st
  cases queue with
  | nil => simp [step] at hs
  | cons x queue =>
    obtain ⟨fresh, heq, hnd, hmem⟩ := offerAll_spec stop (succ x) seen queue
    simp only [step, heq, Loop.LoopStep.next.injEq] at hs
    subst hs
    have hxU : x ∈ U := hq x (by simp)
    have hfreshU : fresh.toFinset ⊆ U \ seen := fun y hy => by
      obtain ⟨hy, -, hseen⟩ := (hmem y).1 (List.mem_toFinset.mp hy)
      exact Finset.mem_sdiff.mpr ⟨hU x hxU y hy, hseen⟩
    refine ⟨fun y hy => ?_, ?_⟩
    · rcases List.mem_append.mp hy with hy | hy
      · exact hq y (by simp [hy])
      · exact (Finset.mem_sdiff.mp (hfreshU (List.mem_toFinset.mpr hy))).1
    · -- the fresh nodes leave the unseen part of `U`, one for one
      have hcard : (U \ (seen ∪ fresh.toFinset)).card + fresh.length = (U \ seen).card := by
        have hsplit : U \ (seen ∪ fresh.toFinset) = (U \ seen) \ fresh.toFinset := by
          ext y
          simp only [Finset.mem_sdiff, Finset.mem_union]
          tauto
        rw [hsplit, ← List.toFinset_card_of_nodup hnd]
        exact Finset.card_sdiff_add_card_eq_card hfreshU
      simp only [measure, List.length_append, List.length_cons]
      omega

/-- **The search's specification.** Started from the seen set `V₀` and a queue `Q₀` of
    distinct nodes of `V₀` and `U`, where `U` is closed under `succ`, any fuel beyond twice
    the size of `U` finishes the search. It returns the nodes reached from `Q₀` avoiding
    blocked nodes, each once, and the seen set `V₀` with them. -/
theorem search_spec (stop : α → Bool) {U : Finset α} (hU : ∀ x ∈ U, ∀ y ∈ succ x, y ∈ U)
    (hQ : ∀ x ∈ Q₀, x ∈ V₀ ∧ x ∈ U) (hnd : Q₀.Nodup) {fuel : Nat}
    (hfuel : 2 * U.card + 1 ≤ fuel) :
    ∃ r, search succ stop fuel ⟨Q₀, V₀, []⟩ = some r ∧ Post succ stop Q₀ V₀ r := by
  -- the seeds are distinct nodes of `U ∩ V₀`, so the first measure is at most `2 * |U|`
  have hμ : measure U ⟨Q₀, V₀, []⟩ + 1 ≤ fuel := by
    have hsub : Q₀.toFinset ⊆ U ∩ V₀ := fun x hx => by
      obtain ⟨hV, hU⟩ := hQ x (List.mem_toFinset.mp hx)
      exact Finset.mem_inter.mpr ⟨hU, hV⟩
    have hlen : Q₀.length ≤ (U ∩ V₀).card :=
      (List.toFinset_card_of_nodup hnd) ▸ Finset.card_le_card hsub
    have hsplit := Finset.card_sdiff_add_card_inter U V₀
    simp only [measure]
    omega
  exact Loop.run_spec (fun st => Invariant succ stop Q₀ V₀ st ∧ ∀ x ∈ st.queue, x ∈ U)
    (Post succ stop Q₀ V₀) (measure U)
    (fun _ _ h hs => ⟨h.1.next hs, (measure_step hU h.2 hs).1⟩)
    (fun _ _ h hs => (measure_step hU h.2 hs).2)
    (fun _ _ h hs => h.1.post hs)
    ⟨Invariant.init (fun x hx => (hQ x hx).1) hnd, fun x hx => (hQ x hx).2⟩ hμ

end Bfs
