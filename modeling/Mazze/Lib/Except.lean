import Mathlib

/-!
# Computations that may panic

Rust code that may panic is modelled in `Except ε`, the error being the panic. Proofs
about such code mostly run it forward on a path where nothing panics, and take apart a
result that is known to be `ok`. The lemmas here do that for `bind`: an `ok` step
passes its value on (`ok_bind`), and an `ok` result came from `ok` steps all the way
(`bind_eq_ok`); and for `map`, whose `ok` result names the value it came from
(`map_eq_ok`). A concrete run that returns is `ok` of its result (`eq_ok_toOption_getD`).
-/

set_option autoImplicit false

namespace Except

variable {ε α β : Type}

@[simp] theorem pure_eq_ok (a : α) : (pure a : Except ε α) = .ok a := rfl

@[simp] theorem ok_bind (a : α) (f : α → Except ε β) : (Except.ok a >>= f) = f a := rfl

@[simp] theorem error_bind (e : ε) (f : α → Except ε β) : (Except.error e >>= f) = .error e := rfl

/-- An `ok` result of a `bind` came from an `ok` first step. -/
theorem bind_eq_ok {x : Except ε α} {f : α → Except ε β} {b : β} (h : (x >>= f) = .ok b) :
    ∃ a, x = .ok a ∧ f a = .ok b := by
  cases x with
  | error e => cases h
  | ok a => exact ⟨a, rfl, h⟩

/-- An `ok` result of a `map` came from an `ok` value. -/
theorem map_eq_ok {x : Except ε α} {f : α → β} {b : β} (h : x.map f = .ok b) :
    ∃ a, x = .ok a ∧ f a = b := by
  cases x with
  | error e => cases h
  | ok a =>
    refine ⟨a, rfl, ?_⟩
    cases h
    rfl

/-- A computation that returns is `ok` of what `toOption` reads off it; a concrete run whose
    `isOk` is evaluated gets its result so. -/
theorem eq_ok_toOption_getD {x : Except ε α} (h : x.isOk = true) (d : α) :
    x = .ok (x.toOption.getD d) := by
  cases x with
  | error e => cases h
  | ok a => rfl

end Except
