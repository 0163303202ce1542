import Mathlib
import Mazze.Lib.Loop

/-!
# Kahn's topological sort, emitting sinks first from a max-heap

This is the sort the `dag` utility crate writes: the nodes of an index set, each listed
after every predecessor it has in the set. The sort works backwards. It counts, for each
node, the members whose predecessor edges name it (`countNextEdges`). It then repeatedly
pops the greatest candidate, a node whose count is zero. It records the node and releases
the node's predecessors, each of which loses a count and becomes a candidate when its
count reaches zero (`release`). The recorded list is reversed at the end. The candidate
heap is a list, and popping it takes its greatest entry in the lexicographic order of
the pairs (`popMax`).

`topologicalSort_spec` is the specification. On a set of distinct nodes whose
predecessor edges lower a rank, any fuel beyond the set's size returns a permutation of
the set that lists predecessors first. The invariant ties each count to the
predecessor edges of the members not yet recorded (`refs`). Completeness rests on the
rank: at the end, a member of greatest rank among those not recorded would have a count
of zero, and so would be a candidate.
-/

set_option autoImplicit false

namespace TopoSort

variable {α κ : Type} [LinearOrder α] [LinearOrder κ]

/-- The loop state: `num_next_edges`, the heap `candidates`, and `reversed_indices`. -/
structure State (α κ : Type) where
  counts : α → Nat
  candidates : List (κ × α)
  reversedIndices : List α

/-- `num_next_edges` as its loop leaves it: each member's predecessor edges into the set
    add one to the predecessor they name. -/
def countNextEdges (indexSet : List α) (pred : α → List α) : α → Nat :=
  indexSet.foldl (fun counts me =>
    (pred me).foldl (fun counts prev =>
      if prev ∈ indexSet then Function.update counts prev (counts prev + 1) else counts) counts)
    fun _ => 0

/-- `BinaryHeap::pop`: the greatest entry, pairs compared lexicographically. -/
def popMax (candidates : List (κ × α)) : Option ((κ × α) × List (κ × α)) :=
  (candidates.argmax toLex).map fun m => (m, candidates.erase m)

/-- Release one predecessor `prev` of a popped node: if it is in the set it loses a count,
    and it becomes a candidate when its count reaches zero. -/
def release (indexSet : List α) (ord : α → κ) (acc : (α → Nat) × List (κ × α)) (prev : α) :
    (α → Nat) × List (κ × α) :=
  if prev ∈ indexSet then
    let counts := Function.update acc.1 prev (acc.1 prev - 1)
    if counts prev = 0 then (counts, acc.2 ++ [(ord prev, prev)]) else (counts, acc.2)
  else acc

/-- One turn of `while let Some((_, me)) = candidates.pop()`. -/
def step (indexSet : List α) (pred : α → List α) (ord : α → κ) :
    State α κ → Loop.LoopStep (List α) (State α κ)
  | ⟨counts, candidates, reversedIndices⟩ =>
    match popMax candidates with
    | none => .done reversedIndices.reverse
    | some ((_, me), rest) =>
      let acc := (pred me).foldl (release indexSet ord) (counts, rest)
      .next ⟨acc.1, acc.2, reversedIndices ++ [me]⟩

/-- `topological_sort(index_set, predecessor_edges, order_indicator)`, run for at most
    `fuel` turns. -/
def topologicalSort (fuel : Nat) (indexSet : List α) (pred : α → List α) (ord : α → κ) :
    Option (List α) :=
  let counts := countNextEdges indexSet pred
  Loop.run (step indexSet pred ord) fuel
    ⟨counts, (indexSet.filter fun me => counts me = 0).map fun me => (ord me, me), []⟩

/-! ## 1. The counts -/

variable {S : List α} {pred : α → List α} {ord : α → κ}

/-- The members of `S` not yet recorded in `R`. -/
def remaining (S R : List α) : Finset α := S.toFinset.filter (· ∉ R)

/-- How many predecessor edges of the members not yet recorded name `x`: what the count of
    `x` stands for. -/
def refs (pred : α → List α) (S R : List α) (x : α) : Nat :=
  ∑ y ∈ remaining S R, (pred y).count x

theorem mem_remaining {R : List α} {x : α} : x ∈ remaining S R ↔ x ∈ S ∧ x ∉ R := by
  simp [remaining]

/-- Recording `me` drops its edges from every count. -/
theorem refs_append {R : List α} {me : α} (hme : me ∈ remaining S R) (x : α) :
    refs pred S (R ++ [me]) x + (pred me).count x = refs pred S R x := by
  have hrem : remaining S (R ++ [me]) = (remaining S R).erase me := by
    ext y
    simp only [mem_remaining, Finset.mem_erase, List.mem_append, List.mem_singleton]
    tauto
  simp only [refs, hrem]
  exact Finset.sum_erase_add _ _ hme

/-- The first loop in closed form: a member's count is the number of edges of members that
    name it, and a node outside the set is never counted. -/
theorem countNextEdges_apply (x : α) :
    countNextEdges S pred x = if x ∈ S then (S.map fun y => (pred y).count x).sum else 0 := by
  -- one member's edges add their count of `x`, when `x` is in the set
  have hinner : ∀ (ys : List α) (c : α → Nat),
      ys.foldl (fun counts prev => if prev ∈ S then
        Function.update counts prev (counts prev + 1) else counts) c x =
        c x + if x ∈ S then ys.count x else 0 := by
    intro ys
    induction ys with
    | nil => simp
    | cons y ys ih =>
      intro c
      rw [List.foldl_cons, ih]
      by_cases hxy : x = y
      · subst hxy
        by_cases hx : x ∈ S <;> simp [hx]
        omega
      · by_cases hy : y ∈ S <;> simp [hy, Function.update_of_ne hxy, Ne.symm hxy]
  have houter : ∀ (L : List α) (c : α → Nat), L.foldl (fun counts me =>
      (pred me).foldl (fun counts prev => if prev ∈ S then
        Function.update counts prev (counts prev + 1) else counts) counts) c x =
        c x + if x ∈ S then (L.map fun y => (pred y).count x).sum else 0 := by
    intro L
    induction L with
    | nil => simp
    | cons y L ih =>
      intro c
      rw [List.foldl_cons, ih, hinner]
      by_cases hx : x ∈ S <;> simp [hx]
      omega
  rw [countNextEdges, houter]
  simp

/-- The first loop counts, for a member `x`, the edges of all members that name it. -/
theorem countNextEdges_eq (hS : S.Nodup) {x : α} (hx : x ∈ S) :
    countNextEdges S pred x = refs pred S [] x := by
  have hrem : remaining S [] = S.toFinset := by ext; simp [remaining]
  rw [countNextEdges_apply, if_pos hx, refs, hrem, List.sum_toFinset _ hS]

/-! ## 2. Releasing predecessors -/

omit [LinearOrder κ] in
/-- **What releasing does.** Releasing the list `ys` lowers the count of each member by its
    number of occurrences in `ys`. The new candidates are the members of `ys` whose count
    falls to zero, each once. -/
theorem release_foldl (ord : α → κ) (ys : List α) (counts : α → Nat) (rest : List (κ × α))
    (hle : ∀ x ∈ S, ys.count x ≤ counts x) :
    ∃ new : List α, ys.foldl (release S ord) (counts, rest) =
      (fun x => if x ∈ S then counts x - ys.count x else counts x,
        rest ++ new.map fun x => (ord x, x)) ∧
      new.Nodup ∧ ∀ x, x ∈ new ↔ x ∈ S ∧ x ∈ ys ∧ counts x = ys.count x := by
  induction ys generalizing counts rest with
  | nil =>
    refine ⟨[], ?_, List.nodup_nil, by simp⟩
    simp only [List.foldl_nil, List.count_nil, Nat.sub_zero, List.map_nil, List.append_nil]
    congr 1
    funext x
    split <;> rfl
  | cons y ys ih =>
    by_cases hy : y ∈ S
    · -- `y` loses one count; its count before was positive, as `y` occurs in the list
      have hpos : 1 ≤ counts y := by
        have := hle y hy
        simp only [List.count_cons_self] at this
        omega
      set counts₁ := Function.update counts y (counts y - 1) with hc₁
      have hle₁ : ∀ x ∈ S, ys.count x ≤ counts₁ x := by
        intro x hx
        have := hle x hx
        by_cases hxy : x = y
        · subst hxy
          simp only [List.count_cons_self] at this
          simp only [hc₁, Function.update_self]
          omega
        · simp only [List.count_cons_of_ne (Ne.symm hxy)] at this
          simpa [hc₁, Function.update_of_ne hxy] using this
      have hcount : ∀ x, (if x ∈ S then counts₁ x - ys.count x else counts₁ x) =
          (if x ∈ S then counts x - (y :: ys).count x else counts x) := by
        intro x
        by_cases hxy : x = y
        · subst hxy
          simp only [hy, if_true, hc₁, Function.update_self, List.count_cons_self]
          omega
        · simp [hc₁, Function.update_of_ne hxy, List.count_cons_of_ne (Ne.symm hxy)]
      by_cases hzero : counts y = 1
      · -- the count reaches zero: `y` is pushed, and does not occur again
        obtain ⟨new, heq, hnd, hmem⟩ := ih counts₁ (rest ++ [(ord y, y)]) hle₁
        have hstep : release S ord (counts, rest) y = (counts₁, rest ++ [(ord y, y)]) := by
          simp [release, hy, hc₁, hzero]
        have hnot : y ∉ ys := by
          have := hle₁ y hy
          simp only [hc₁, Function.update_self, hzero] at this
          exact List.count_eq_zero.mp (by omega)
        refine ⟨y :: new, ?_, ?_, ?_⟩
        · rw [List.foldl_cons, hstep, heq]
          simp only [List.map_cons, List.append_assoc, List.singleton_append]
          congr 1
          funext x
          exact hcount x
        · exact List.nodup_cons.mpr ⟨fun h => hnot ((hmem y).1 h).2.1, hnd⟩
        · intro x
          rw [List.mem_cons, hmem x]
          by_cases hxy : x = y
          · subst hxy
            simp [hy, hzero, List.count_eq_zero.mpr hnot]
          · simp [hxy, hc₁, List.count_cons_of_ne (Ne.symm hxy)]
      · -- the count stays positive: nothing is pushed
        obtain ⟨new, heq, hnd, hmem⟩ := ih counts₁ rest hle₁
        have hstep : release S ord (counts, rest) y = (counts₁, rest) := by
          have : ¬ counts y - 1 = 0 := by omega
          simp [release, hy, hc₁, this]
        refine ⟨new, ?_, hnd, ?_⟩
        · rw [List.foldl_cons, hstep, heq]
          congr 1
          funext x
          exact hcount x
        · intro x
          rw [hmem x]
          by_cases hxy : x = y
          · subst hxy
            have := hle x hy
            simp only [List.count_cons_self] at this
            simp only [hc₁, Function.update_self, List.count_cons_self, List.mem_cons, true_or,
              hy, true_and]
            constructor
            · rintro ⟨-, h⟩
              omega
            · intro h
              refine ⟨List.count_pos_iff.mp (by omega), by omega⟩
          · simp [hxy, hc₁, List.count_cons_of_ne (Ne.symm hxy)]
    · -- `y` is outside the set and releasing it changes nothing
      have hstep : release S ord (counts, rest) y = (counts, rest) := by simp [release, hy]
      have hle' : ∀ x ∈ S, ys.count x ≤ counts x := by
        intro x hx
        have hxy : x ≠ y := fun h => hy (h ▸ hx)
        simpa [List.count_cons_of_ne (Ne.symm hxy)] using hle x hx
      obtain ⟨new, heq, hnd, hmem⟩ := ih counts rest hle'
      refine ⟨new, ?_, hnd, ?_⟩
      · rw [List.foldl_cons, hstep, heq]
        congr 1
        funext x
        by_cases hx : x ∈ S
        · have hxy : x ≠ y := fun h => hy (h ▸ hx)
          simp [hx, List.count_cons_of_ne (Ne.symm hxy)]
        · simp [hx]
      · intro x
        rw [hmem x]
        by_cases hx : x ∈ S
        · have hxy : x ≠ y := fun h => hy (h ▸ hx)
          simp [hx, hxy, List.count_cons_of_ne (Ne.symm hxy)]
        · simp [hx]

/-! ## 3. The heap -/

theorem popMax_eq_none {candidates : List (κ × α)} :
    popMax candidates = none ↔ candidates = [] := by
  simp [popMax]

theorem popMax_eq_some {candidates rest : List (κ × α)} {m : κ × α}
    (h : popMax candidates = some (m, rest)) : m ∈ candidates ∧ rest = candidates.erase m := by
  simp only [popMax, Option.map_eq_some_iff, Prod.mk.injEq] at h
  obtain ⟨m', hm', rfl, rfl⟩ := h
  exact ⟨List.argmax_mem hm', rfl⟩

/-- Taking an entry out of a heap whose nodes are distinct removes exactly its node. -/
theorem erase_map_snd {candidates : List (κ × α)} {m : κ × α} (hm : m ∈ candidates)
    (hnd : (candidates.map Prod.snd).Nodup) :
    ((candidates.erase m).map Prod.snd).Nodup ∧ m.2 ∉ (candidates.erase m).map Prod.snd ∧
      ∀ y, y ∈ candidates.map Prod.snd ↔ y = m.2 ∨ y ∈ (candidates.erase m).map Prod.snd := by
  have hperm := ((List.perm_cons_erase hm).map Prod.snd)
  have hnd' := hperm.nodup_iff.mp hnd
  rw [List.map_cons, List.nodup_cons] at hnd'
  refine ⟨hnd'.2, hnd'.1, fun y => ?_⟩
  rw [hperm.mem_iff, List.map_cons, List.mem_cons]

/-! ## 4. The invariant -/

/-- The invariant of the main loop over the set `S`:

* each count is the number of not-yet-recorded edges naming the member;
* the candidates are exactly the unrecorded members with no such edge, each once;
* the recorded nodes are distinct members, and none is named by an unrecorded one;
* a node recorded earlier is never a predecessor of one recorded later. -/
structure Invariant (S : List α) (pred : α → List α) (st : State α κ) : Prop where
  counts_eq : ∀ x ∈ S, st.counts x = refs pred S st.reversedIndices x
  candidates_iff : ∀ x, x ∈ st.candidates.map Prod.snd ↔
    x ∈ S ∧ x ∉ st.reversedIndices ∧ refs pred S st.reversedIndices x = 0
  candidates_nodup : (st.candidates.map Prod.snd).Nodup
  recorded_sub : ∀ x ∈ st.reversedIndices, x ∈ S
  recorded_nodup : st.reversedIndices.Nodup
  recorded_done : ∀ x ∈ st.reversedIndices, refs pred S st.reversedIndices x = 0
  recorded_order : st.reversedIndices.Pairwise fun a b => a ∉ pred b

omit [LinearOrder κ] in
theorem Invariant.init (hS : S.Nodup) :
    Invariant S pred (⟨countNextEdges S pred,
      (S.filter fun me => countNextEdges S pred me = 0).map fun me => (ord me, me), []⟩ :
        State α κ) where
  counts_eq x hx := countNextEdges_eq hS hx
  candidates_iff x := by
    simp only [List.map_map, List.not_mem_nil, not_false_eq_true, true_and]
    constructor
    · intro hx
      obtain ⟨hx, hc⟩ := by simpa using hx
      exact ⟨hx, (countNextEdges_eq hS hx).symm.trans hc⟩
    · rintro ⟨hx, hc⟩
      simpa [hx] using (countNextEdges_eq hS hx).trans hc
  candidates_nodup := by
    simpa [List.map_map, Function.comp_def] using hS.filter _
  recorded_sub x hx := by simp at hx
  recorded_nodup := List.nodup_nil
  recorded_done x hx := by simp at hx
  recorded_order := List.Pairwise.nil

section Ranked

variable {rank : α → Nat} (hrank : ∀ y ∈ S, ∀ x ∈ pred y, x ∈ S → rank x < rank y)
include hrank

/-- **The step lemma.** One turn keeps the invariant, and records one more node. -/
theorem Invariant.next {st st' : State α κ} (h : Invariant S pred st)
    (hs : step S pred ord st = .next st') :
    Invariant S pred st' ∧ st'.reversedIndices.length = st.reversedIndices.length + 1 := by
  obtain ⟨counts, candidates, R⟩ := st
  simp only [step] at hs
  cases hpop : popMax candidates with
  | none => simp [hpop] at hs
  | some p =>
    obtain ⟨⟨k, me⟩, rest⟩ := p
    obtain ⟨hmem, rfl⟩ := popMax_eq_some hpop
    simp only [hpop, Loop.LoopStep.next.injEq] at hs
    subst hs
    have hcounts : ∀ x ∈ S, counts x = refs pred S R x := h.counts_eq
    have hcands : ∀ x, x ∈ candidates.map Prod.snd ↔ x ∈ S ∧ x ∉ R ∧ refs pred S R x = 0 :=
      h.candidates_iff
    have hdone : ∀ x ∈ R, refs pred S R x = 0 := h.recorded_done
    -- the popped node is an unrecorded member that no unrecorded edge names
    have hme : me ∈ S ∧ me ∉ R ∧ refs pred S R me = 0 :=
      (hcands me).1 (List.mem_map_of_mem (f := Prod.snd) hmem)
    have hmeR : me ∈ remaining S R := mem_remaining.mpr ⟨hme.1, hme.2.1⟩
    have hself : me ∉ pred me := fun h' => absurd (hrank me hme.1 me h' hme.1) (lt_irrefl _)
    have hle : ∀ x ∈ S, (pred me).count x ≤ counts x := fun x hx => by
      rw [hcounts x hx, ← refs_append hmeR x]
      omega
    obtain ⟨new, heq, hnd, hnew⟩ :=
      release_foldl ord (pred me) counts (candidates.erase (k, me)) hle
    obtain ⟨hrest_nd, hme_rest, hcand⟩ := erase_map_snd hmem h.candidates_nodup
    have hdrop : ∀ x, refs pred S (R ++ [me]) x + (pred me).count x = refs pred S R x :=
      refs_append hmeR
    rw [heq]
    dsimp only
    refine ⟨⟨?_, ?_, ?_, ?_, ?_, ?_, ?_⟩, by simp⟩
    · -- counts follow the recorded node's edges
      intro x hx
      have := hdrop x
      simp only [hx, if_true, hcounts x hx]
      omega
    · intro x
      simp only [List.map_append, List.map_map, List.mem_append, List.mem_singleton]
      constructor
      · rintro (hx | hx)
        · -- a candidate left in the heap
          have hne : x ≠ me := fun hxm => hme_rest (hxm ▸ hx)
          obtain ⟨hxS, hxR, hx0⟩ := (hcands x).1 ((hcand x).2 (Or.inr hx))
          have := hdrop x
          exact ⟨hxS, by simp [hxR, hne], by omega⟩
        · -- a released predecessor whose count reached zero
          obtain ⟨hxS, hxp, hxc⟩ := (hnew x).1 (by simpa [Function.comp_def] using hx)
          have hpos : 0 < (pred me).count x := List.count_pos_iff.mpr hxp
          have hxR : x ∉ R := fun hxR => by
            have := hdone x hxR
            rw [← hcounts x hxS] at this
            omega
          have hne : x ≠ me := fun hxm => hself (hxm ▸ hxp)
          have := hdrop x
          rw [hcounts x hxS] at hxc
          exact ⟨hxS, by simp [hxR, hne], by omega⟩
      · rintro ⟨hxS, hxR, hx0⟩
        simp only [not_or] at hxR
        have := hdrop x
        by_cases hold : refs pred S R x = 0
        · left
          exact ((hcand x).1 ((hcands x).2 ⟨hxS, hxR.1, hold⟩)).resolve_left hxR.2
        · right
          have hxp : x ∈ pred me := List.count_pos_iff.mp (by omega)
          have : x ∈ new := (hnew x).2 ⟨hxS, hxp, by rw [hcounts x hxS]; omega⟩
          simpa [Function.comp_def] using this
    · -- the heap stays free of repeats: a pushed node had a positive count before
      rw [List.map_append, List.map_map]
      refine List.nodup_append.mpr ⟨hrest_nd, by simpa [Function.comp_def] using hnd, ?_⟩
      intro a ha b hb hab
      subst hab
      obtain ⟨hbS, hbp, hbc⟩ := (hnew a).1 (by simpa [Function.comp_def] using hb)
      obtain ⟨-, -, ha0⟩ := (hcands a).1 ((hcand a).2 (Or.inr ha))
      rw [hcounts a hbS, ha0] at hbc
      exact absurd (List.count_pos_iff.mpr hbp) (by omega)
    · intro x hx
      simp only [List.mem_append, List.mem_singleton] at hx
      rcases hx with hx | rfl
      · exact h.recorded_sub x hx
      · exact hme.1
    · exact List.nodup_append.mpr ⟨h.recorded_nodup, List.nodup_singleton me,
        fun a ha b hb hab => by simp at hb; subst hb; subst hab; exact hme.2.1 ha⟩
    · intro x hx
      show refs pred S (R ++ [me]) x = 0
      have := hdrop x
      simp only [List.mem_append, List.mem_singleton] at hx
      rcases hx with hx | rfl
      · have := hdone x hx
        omega
      · have := hme.2.2
        omega
    · -- a node recorded before `me` is not named by `me`, which was still unrecorded
      refine List.pairwise_append.mpr ⟨h.recorded_order, List.pairwise_singleton _ _, ?_⟩
      intro a ha b hb hab
      simp only [List.mem_singleton] at hb
      subst hb
      have := hdone a ha
      have := hdrop a
      have := List.count_pos_iff.mpr hab
      omega

/-- **The exit lemma.** When the heap is empty every member has been recorded: a member of
    greatest rank among the unrecorded ones would have no unrecorded edge naming it, and so
    would be a candidate. -/
theorem Invariant.post {st : State α κ} {l : List α} (hS : S.Nodup) (h : Invariant S pred st)
    (hs : step S pred ord st = .done l) : l.Perm S ∧ l.Pairwise fun a b => b ∉ pred a := by
  obtain ⟨counts, candidates, R⟩ := st
  simp only [step] at hs
  cases hpop : popMax candidates with
  | some p => obtain ⟨⟨_, _⟩, _⟩ := p; simp [hpop] at hs
  | none =>
    simp only [hpop, Loop.LoopStep.done.injEq] at hs
    subst hs
    have hnil : candidates = [] := popMax_eq_none.mp hpop
    have hall : ∀ x ∈ S, x ∈ R := by
      by_contra hne
      push Not at hne
      -- take an unrecorded member of greatest rank
      obtain ⟨x, hx, hmax⟩ := (remaining S R).exists_max_image rank
        ⟨_, mem_remaining.mpr hne.choose_spec⟩
      obtain ⟨hxS, hxR⟩ := mem_remaining.mp hx
      have hrefs : refs pred S R x ≠ 0 := fun h0 => by
        have := (h.candidates_iff x).2 ⟨hxS, hxR, h0⟩
        simp [hnil] at this
      obtain ⟨y, hy, hyx⟩ := Finset.exists_ne_zero_of_sum_ne_zero hrefs
      obtain ⟨hyS, -⟩ := mem_remaining.mp hy
      have := hrank y hyS x (List.count_pos_iff.mp (Nat.pos_of_ne_zero hyx)) hxS
      exact absurd (hmax y hy) (Nat.not_le.mpr this)
    refine ⟨?_, ?_⟩
    · exact (List.perm_ext_iff_of_nodup (List.nodup_reverse.mpr h.recorded_nodup) hS).mpr
        fun x => by simpa using ⟨h.recorded_sub x, hall x⟩
    · exact List.pairwise_reverse.mpr h.recorded_order

/-- **The sort's specification.** On distinct nodes whose predecessor edges inside the set
    lower `rank`, fuel beyond the number of nodes returns a permutation of the set in which
    no node comes after one of its successors. -/
theorem topologicalSort_spec (ord : α → κ) (hS : S.Nodup) {fuel : Nat}
    (hfuel : S.length + 1 ≤ fuel) :
    ∃ l, topologicalSort fuel S pred ord = some l ∧
      l.Perm S ∧ l.Pairwise fun a b => b ∉ pred a := by
  -- the measure is the number of members not yet recorded
  have hlen : ∀ st : State α κ, Invariant S pred st → st.reversedIndices.length ≤ S.length :=
    fun st h => by
      have := List.toFinset_card_of_nodup h.recorded_nodup
      have hsub : st.reversedIndices.toFinset ⊆ S.toFinset := fun x hx =>
        List.mem_toFinset.mpr (h.recorded_sub x (List.mem_toFinset.mp hx))
      have := Finset.card_le_card hsub
      rw [List.toFinset_card_of_nodup hS] at this
      omega
  have hinit : Invariant S pred (⟨countNextEdges S pred,
      (S.filter fun me => countNextEdges S pred me = 0).map fun me => (ord me, me), []⟩ :
        State α κ) := Invariant.init hS
  exact Loop.run_spec (Invariant S pred) (fun l => l.Perm S ∧ l.Pairwise fun a b => b ∉ pred a)
    (fun st => S.length - st.reversedIndices.length)
    (fun _ _ h hs => (h.next hrank hs).1)
    (fun _ _ h hs => by
      obtain ⟨h', hl⟩ := h.next hrank hs
      have := hlen _ h'
      omega)
    (fun _ _ h hs => h.post hrank hS hs)
    hinit (by simpa using hfuel)

end Ranked

/-! ## 6. Acyclic edges have a rank -/

/-- A predecessor edge between two members of the set. -/
def InSetEdge (S : List α) (pred : α → List α) (a b : α) : Prop := a ∈ S ∧ b ∈ S ∧ a ∈ pred b

omit [LinearOrder α] in
/-- Edges inside a finite set that close no cycle lower a rank: the number of members that
    reach a node. -/
theorem exists_rank_of_acyclic (hdag : ∀ x, ¬ Relation.TransGen (InSetEdge S pred) x x) :
    ∃ rank : α → Nat, ∀ y ∈ S, ∀ x ∈ pred y, x ∈ S → rank x < rank y := by
  classical
  refine ⟨fun x => (S.toFinset.filter fun a => Relation.TransGen (InSetEdge S pred) a x).card,
    fun y hy x hx hxS => Finset.card_lt_card ?_⟩
  have hedge : InSetEdge S pred x y := ⟨hxS, hy, hx⟩
  -- what reaches `x` reaches `y`; `x` itself reaches `y` but not itself
  refine (Finset.ssubset_iff_of_subset fun a ha => ?_).mpr ⟨x, ?_, ?_⟩
  · rw [Finset.mem_filter] at ha ⊢
    exact ⟨ha.1, ha.2.tail hedge⟩
  · exact Finset.mem_filter.mpr ⟨List.mem_toFinset.mpr hxS, .single hedge⟩
  · exact fun h => hdag x (Finset.mem_filter.mp h).2

omit [LinearOrder α] in
/-- A rank that every edge inside the set lowers leaves no cycle. -/
theorem acyclic_of_rank {rank : α → Nat} (hrank : ∀ y ∈ S, ∀ x ∈ pred y, x ∈ S → rank x < rank y)
    (x : α) : ¬ Relation.TransGen (InSetEdge S pred) x x := by
  have hlt : ∀ a b, Relation.TransGen (InSetEdge S pred) a b → rank a < rank b := by
    intro a b hab
    induction hab with
    | single h => exact hrank _ h.2.1 _ h.2.2 h.1
    | tail _ h ih => exact ih.trans (hrank _ h.2.1 _ h.2.2 h.1)
  exact fun h => lt_irrefl _ (hlt x x h)

/-! ## 7. The order does not depend on how the set is listed -/

/-- The heap's greatest entry does not depend on the order it was filled in: pairs in a
    linear order have one greatest. -/
theorem argmax_perm {l₁ l₂ : List (κ × α)} (h : l₁.Perm l₂) :
    l₁.argmax toLex = l₂.argmax toLex := by
  cases h₁ : l₁.argmax toLex with
  | none =>
    rw [List.argmax_eq_none] at h₁
    subst h₁
    rw [← h.nil_eq, List.argmax_nil]
  | some m₁ =>
    obtain ⟨m₂, h₂⟩ : ∃ m₂, l₂.argmax toLex = some m₂ := Option.ne_none_iff_exists'.mp
      fun h₂ => by
        rw [List.argmax_eq_none] at h₂
        subst h₂
        rw [List.perm_nil.mp h, List.argmax_nil] at h₁
        cases h₁
    have hle₁ := List.le_of_mem_argmax (h.mem_iff.mpr (List.argmax_mem h₂)) h₁
    have hle₂ := List.le_of_mem_argmax (h.mem_iff.mp (List.argmax_mem h₁)) h₂
    rw [h₂, toLex.injective (le_antisymm hle₂ hle₁)]

/-- Popping heaps that hold the same entries gives the same entry, and leaves the same
    entries. -/
theorem popMax_perm {l₁ l₂ : List (κ × α)} (h : l₁.Perm l₂) :
    (popMax l₁ = none ∧ popMax l₂ = none) ∨
      ∃ m r₁ r₂, popMax l₁ = some (m, r₁) ∧ popMax l₂ = some (m, r₂) ∧ r₁.Perm r₂ := by
  simp only [popMax, argmax_perm h]
  cases l₂.argmax toLex with
  | none => exact .inl ⟨rfl, rfl⟩
  | some m => exact .inr ⟨m, _, _, rfl, rfl, h.erase m⟩

omit [LinearOrder κ] in
/-- Releasing appends its new candidates after the heap it started from, whatever that was. -/
theorem release_foldl_append (ord : α → κ) :
    ∀ (ys : List α) (counts : α → Nat) (rest : List (κ × α)),
      ys.foldl (release S ord) (counts, rest) =
        ((ys.foldl (release S ord) (counts, [])).1,
          rest ++ (ys.foldl (release S ord) (counts, [])).2)
  | [], _, _ => by simp
  | y :: ys, counts, rest => by
    have hone : release S ord (counts, rest) y =
        ((release S ord (counts, []) y).1, rest ++ (release S ord (counts, []) y).2) := by
      simp only [release]
      split_ifs <;> simp
    rw [List.foldl_cons, List.foldl_cons, hone, release_foldl_append ord ys _ (rest ++ _),
      release_foldl_append ord ys _ (release S ord (counts, []) y).2, List.append_assoc]

omit [LinearOrder κ] in
/-- Releasing reads the set through membership only. -/
theorem release_perm {S₁ S₂ : List α} (h : S₁.Perm S₂) (ord : α → κ) :
    release S₁ ord = release S₂ ord := by
  funext acc prev
  simp only [release, h.mem_iff]

omit [LinearOrder κ] in
/-- The counts read the set through membership and a sum over it. -/
theorem countNextEdges_perm {S₁ S₂ : List α} (h : S₁.Perm S₂) :
    countNextEdges S₁ pred = countNextEdges S₂ pred := by
  funext x
  simp only [countNextEdges_apply, h.mem_iff, (h.map _).sum_eq]

/-- Two loop states that differ only in the order of the heap. -/
structure SameUpToHeap (st₁ st₂ : State α κ) : Prop where
  counts : st₁.counts = st₂.counts
  candidates : st₁.candidates.Perm st₂.candidates
  reversedIndices : st₁.reversedIndices = st₂.reversedIndices

/-- **The lock-step lemma.** Over two listings of one set, states that differ only in the
    heap's order both stop with the same list, or both move on to states that again differ
    only in the heap's order. -/
theorem SameUpToHeap.lockstep {S₁ S₂ : List α} (hS : S₁.Perm S₂) {st₁ st₂ : State α κ}
    (h : SameUpToHeap st₁ st₂) :
    (∃ l, step S₁ pred ord st₁ = .done l ∧ step S₂ pred ord st₂ = .done l) ∨
      ∃ st₁' st₂', step S₁ pred ord st₁ = .next st₁' ∧ step S₂ pred ord st₂ = .next st₂' ∧
        SameUpToHeap st₁' st₂' := by
  obtain ⟨counts, cands₁, R⟩ := st₁
  obtain ⟨counts₂, cands₂, R₂⟩ := st₂
  obtain ⟨hc, hcands, hR⟩ := h
  dsimp only at hc hcands hR
  subst hc hR
  rcases popMax_perm hcands with ⟨h₁, h₂⟩ | ⟨⟨k, me⟩, r₁, r₂, h₁, h₂, hr⟩
  · exact .inl ⟨R.reverse, by simp only [step, h₁], by simp only [step, h₂]⟩
  · -- both pop `me`; the released candidates are the same, appended to permuted rests
    refine .inr ⟨⟨((pred me).foldl (release S₁ ord) (counts, r₁)).1,
      ((pred me).foldl (release S₁ ord) (counts, r₁)).2, R ++ [me]⟩,
      ⟨((pred me).foldl (release S₂ ord) (counts, r₂)).1,
      ((pred me).foldl (release S₂ ord) (counts, r₂)).2, R ++ [me]⟩,
      by simp only [step, h₁], by simp only [step, h₂], ?_⟩
    rw [release_perm hS ord, release_foldl_append ord _ _ r₁, release_foldl_append ord _ _ r₂]
    exact ⟨rfl, hr.append_right _, rfl⟩

/-- **The sort depends on the set only.** Two listings of the same nodes, in any order,
    sort the same for every fuel. -/
theorem topologicalSort_perm {S₁ S₂ : List α} (hS : S₁.Perm S₂) (fuel : Nat) :
    topologicalSort fuel S₁ pred ord = topologicalSort fuel S₂ pred ord := by
  simp only [topologicalSort]
  refine Loop.run_eq_of_rel SameUpToHeap (fun _ _ h => h.lockstep hS) fuel ⟨?_, ?_, rfl⟩
  · exact countNextEdges_perm hS
  · rw [countNextEdges_perm hS]
    exact (hS.filter _).map _

end TopoSort
