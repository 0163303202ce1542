import Mathlib

/-!
# Folds of pointwise updates

A loop `for i in l { t[i] = g(i, t[i]) }` over a table `t` is a left fold of
`Function.update` over `l`. Each entry ends up rewritten once for each time its key occurs
in `l` (`foldl_update_apply`). When the rewrite is idempotent, as `retain`, clearing a flag or
overwriting a field are, only whether the key occurs matters (`foldl_update_apply_of_idem`).
-/

set_option autoImplicit false

namespace Function

variable {α β : Type} [DecidableEq α]

/-- One pointwise rewrite per occurrence of the key. The induction is on the list, with the
    table generalised since each turn writes it. -/
theorem foldl_update_apply (g : α → β → β) :
    ∀ (l : List α) (f : α → β) (j : α),
      l.foldl (fun f i => Function.update f i (g i (f i))) f j = (g j)^[l.count j] (f j)
  | [], _, _ => rfl
  | a :: l, f, j => by
    rw [List.foldl_cons, foldl_update_apply g l]
    by_cases hj : j = a
    · subst hj
      rw [List.count_cons_self, Function.iterate_succ_apply, Function.update_self]
    · rw [List.count_cons_of_ne (Ne.symm hj), Function.update_of_ne hj]

/-- Iterating an idempotent rewrite after a first application changes nothing. -/
theorem iterate_of_idem (g : β → β) (hg : ∀ b, g (g b) = g b) :
    ∀ (k : Nat) (b : β), g^[k] (g b) = g b
  | 0, _ => rfl
  | k + 1, b => by rw [Function.iterate_succ_apply, hg, iterate_of_idem g hg k]

/-- An idempotent rewrite lands once on every key of the list, and nowhere else. -/
theorem foldl_update_apply_of_idem (g : α → β → β) (hg : ∀ a b, g a (g a b) = g a b)
    (l : List α) (f : α → β) (j : α) :
    l.foldl (fun f i => Function.update f i (g i (f i))) f j = if j ∈ l then g j (f j) else f j := by
  rw [foldl_update_apply]
  split
  case isTrue hj =>
    obtain ⟨k, hk⟩ : ∃ k, l.count j = k + 1 :=
      Nat.exists_eq_succ_of_ne_zero (Nat.pos_iff_ne_zero.mp (List.count_pos_iff.mpr hj))
    rw [hk, Function.iterate_succ_apply, iterate_of_idem (g j) (hg j)]
  case isFalse hj => rw [List.count_eq_zero.mpr hj, Function.iterate_zero_apply]

end Function
