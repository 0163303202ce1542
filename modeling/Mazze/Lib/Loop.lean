import Mathlib

/-!
# Unbounded loops, run on fuel

A `loop { ... }` whose body either `return`s a value or goes round again from a new
state is one function `body : σ → LoopStep α σ`. Lean cannot run it unboundedly, so
`Loop.run body n s` runs at most `n` turns and answers `none` when the fuel is spent
before the body returns. Two readings of a loop are then statements about every fuel:

* `Loop.ReturnsWithin body n s a` — the loop returns `a` within `n` turns;
* `Loop.Diverges body s` — no fuel is enough, i.e. the source loop never exits.

The lemmas are the ones a verifier of such a loop needs and no others: more fuel never
changes an answer (`run_mono`), a state that comes back to itself diverges
(`diverges_of_next_self`), an invariant carries to whatever the loop returns (`run_inv`),
and a measure that every turn strictly lowers bounds the number of turns
(`run_isSome_of_measure`); `run_spec` puts the last two together. Two loops that move in
lock step through related states return the same, whatever the fuel (`run_eq_of_rel`).
-/

set_option autoImplicit false

namespace Loop

/-- One turn of a loop body: leave the loop with a value, or continue from a state. -/
inductive LoopStep (α σ : Type) where
  | done (a : α)
  | next (s : σ)
  deriving DecidableEq, Repr

variable {α σ : Type}

/-- Run at most `n` turns of `body` from `s`; `none` when the fuel runs out first. -/
def run (body : σ → LoopStep α σ) : Nat → σ → Option α
  | 0, _ => none
  | n + 1, s =>
    match body s with
    | .done a => some a
    | .next s' => run body n s'

@[simp] theorem run_zero (body : σ → LoopStep α σ) (s : σ) : run body 0 s = none := rfl

theorem run_succ (body : σ → LoopStep α σ) (n : Nat) (s : σ) :
    run body (n + 1) s =
      match body s with
      | .done a => some a
      | .next s' => run body n s' := rfl

theorem run_succ_of_done {body : σ → LoopStep α σ} {s : σ} {a : α}
    (h : body s = .done a) (n : Nat) : run body (n + 1) s = some a := by
  simp [run_succ, h]

theorem run_succ_of_next {body : σ → LoopStep α σ} {s s' : σ}
    (h : body s = .next s') (n : Nat) : run body (n + 1) s = run body n s' := by
  simp [run_succ, h]

/-- **More fuel never changes an answer.** The induction is on the smaller fuel, and
    the state is generalised because each turn moves it. -/
theorem run_mono {body : σ → LoopStep α σ} :
    ∀ {n m : Nat} {s : σ} {a : α}, n ≤ m → run body n s = some a → run body m s = some a
  | 0, _, _, _, _, h => by simp at h
  | n + 1, m, s, a, hle, h => by
    obtain ⟨m, rfl⟩ : ∃ k, m = k + 1 := ⟨m - 1, by omega⟩
    cases hb : body s with
    | done b => rw [run_succ_of_done hb] at h ⊢; exact h
    | next s' =>
      rw [run_succ_of_next hb] at h ⊢
      exact run_mono (by omega) h

/-- The loop returns `a` within `n` turns. -/
def ReturnsWithin (body : σ → LoopStep α σ) (n : Nat) (s : σ) (a : α) : Prop :=
  run body n s = some a

/-- The loop never returns: every fuel runs out. -/
def Diverges (body : σ → LoopStep α σ) (s : σ) : Prop :=
  ∀ n, run body n s = none

/-- **A turn that leaves the state as it was repeats forever.** -/
theorem diverges_of_next_self {body : σ → LoopStep α σ} {s : σ}
    (h : body s = .next s) : Diverges body s := by
  intro n
  induction n with
  | zero => rfl
  | succ n ih => rw [run_succ_of_next h]; exact ih

/-- **Invariant rule.** If `Inv` holds of the start, every `next` step keeps it, and a
    `done` step from a state where it holds returns a value satisfying `Post`, then every
    value the loop returns satisfies `Post`, whatever the fuel. -/
theorem run_inv {body : σ → LoopStep α σ} (Inv : σ → Prop) (Post : α → Prop)
    (hnext : ∀ s s', Inv s → body s = .next s' → Inv s')
    (hdone : ∀ s a, Inv s → body s = .done a → Post a) :
    ∀ {n : Nat} {s : σ} {a : α}, Inv s → run body n s = some a → Post a
  | 0, _, _, _, h => by simp at h
  | n + 1, s, a, hs, h => by
    cases hb : body s with
    | done b =>
      rw [run_succ_of_done hb] at h
      obtain rfl : b = a := Option.some.inj h
      exact hdone s b hs hb
    | next s' =>
      rw [run_succ_of_next hb] at h
      exact run_inv Inv Post hnext hdone (hnext s s' hs hb) h

/-- **A measure that every turn lowers bounds the turns.** If, from states satisfying
    `Inv`, each `next` step keeps `Inv` and goes to a state of strictly smaller `μ`, then
    `μ s + 1` turns are enough for the loop to return. -/
theorem run_isSome_of_measure {body : σ → LoopStep α σ} (Inv : σ → Prop) (μ : σ → Nat)
    (hinv : ∀ s s', Inv s → body s = .next s' → Inv s')
    (hμ : ∀ s s', Inv s → body s = .next s' → μ s' < μ s) :
    ∀ (s : σ), Inv s → (run body (μ s + 1) s).isSome := by
  intro s hs
  induction h : μ s using Nat.strongRecOn generalizing s with
  | ind k ih =>
    cases hb : body s with
    | done a => simp [run_succ_of_done hb]
    | next s' =>
      rw [run_succ_of_next hb]
      have hlt : μ s' < k := h ▸ hμ s s' hs hb
      obtain ⟨b, hb'⟩ := Option.isSome_iff_exists.mp (ih (μ s') hlt s' (hinv s s' hs hb) rfl)
      have hk : μ s' + 1 ≤ k := hlt
      simp [run_mono hk hb']

/-- **Total correctness.** The two rules together: with an invariant that a measure
    bounds, any fuel beyond the measure returns, and what it returns satisfies `Post`. -/
theorem run_spec {body : σ → LoopStep α σ} (Inv : σ → Prop) (Post : α → Prop) (μ : σ → Nat)
    (hnext : ∀ s s', Inv s → body s = .next s' → Inv s')
    (hμ : ∀ s s', Inv s → body s = .next s' → μ s' < μ s)
    (hdone : ∀ s a, Inv s → body s = .done a → Post a)
    {s : σ} (hs : Inv s) {n : Nat} (hn : μ s + 1 ≤ n) :
    ∃ a, run body n s = some a ∧ Post a := by
  obtain ⟨a, ha⟩ := Option.isSome_iff_exists.mp (run_isSome_of_measure Inv μ hnext hμ s hs)
  exact ⟨a, run_mono hn ha, run_inv Inv Post hnext hdone hs ha⟩

/-- **Lock-step rule.** If from related states the two bodies either both return the same
    value or both go on to related states, the two loops return the same for every fuel. -/
theorem run_eq_of_rel {τ : Type} {body₁ : σ → LoopStep α σ} {body₂ : τ → LoopStep α τ}
    (R : σ → τ → Prop)
    (hstep : ∀ s t, R s t → (∃ a, body₁ s = .done a ∧ body₂ t = .done a) ∨
      (∃ s' t', body₁ s = .next s' ∧ body₂ t = .next t' ∧ R s' t')) :
    ∀ (n : Nat) {s : σ} {t : τ}, R s t → run body₁ n s = run body₂ n t
  | 0, _, _, _ => rfl
  | n + 1, s, t, h => by
    rcases hstep s t h with ⟨a, h₁, h₂⟩ | ⟨s', t', h₁, h₂, h'⟩
    · rw [run_succ_of_done h₁, run_succ_of_done h₂]
    · rw [run_succ_of_next h₁, run_succ_of_next h₂]
      exact run_eq_of_rel R hstep n h'

end Loop
