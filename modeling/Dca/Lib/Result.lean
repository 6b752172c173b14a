import Mathlib.Algebra.Order.Ring.Int
import Mathlib.Tactic.Basic

/-!
# Fallible computations

How `Except` computations are taken apart: what a sequence does when its first step succeeds or
fails, what a successful sequence says about its steps, what a sequence comes to when its steps are
known by what they come to, and what two sequences have in common that run side by side.
-/

namespace CLib

variable {ε α β : Type}

@[simp] theorem ok_bind (a : α) (f : α → Except ε β) : (Except.ok a >>= f) = f a := rfl

@[simp] theorem error_bind (e : ε) (f : α → Except ε β) :
    ((Except.error e : Except ε α) >>= f) = .error e := rfl

@[simp] theorem pure_eq_ok (a : α) : (pure a : Except ε α) = .ok a := rfl

@[simp] theorem map_ok (f : α → β) (a : α) : (f <$> (Except.ok a : Except ε α)) = .ok (f a) := rfl

@[simp] theorem map_error (f : α → β) (e : ε) :
    (f <$> (Except.error e : Except ε α)) = .error e := rfl

/-- A sequence succeeds when both of its parts do. -/
theorem bind_eq_ok {x : Except ε α} {f : α → Except ε β} {b : β} :
    (x >>= f) = .ok b ↔ ∃ a, x = .ok a ∧ f a = .ok b := by
  cases x <;> simp

/-- What follows need not look at all of a result. -/
theorem bind_eq_of_map {γ : Type} {p : α → γ} {x y : Except ε α} (h : p <$> x = p <$> y)
    {f f' : α → Except ε β} (hf : ∀ a a', p a = p a' → f a = f' a') : (x >>= f) = (y >>= f') := by
  cases x with
  | error e =>
    cases y with
    | error e' =>
      obtain rfl : e = e' := Except.error.inj h
      rfl
    | ok a' => cases h
  | ok a =>
    cases y with
    | error e' => cases h
    | ok a' => exact hf a a' (Except.ok.inj h)

theorem toOption_eq_some {x : Except ε α} {a : α} : x.toOption = some a ↔ x = .ok a := by
  cases x <;> simp [Except.toOption]

/-- A computation that ends with a result, by evaluation. -/
theorem exists_ok_of_any {x : Except ε α} {P : α → Prop} [DecidablePred P]
    (h : x.toOption.any (fun a => decide (P a)) = true) : ∃ a, x = .ok a ∧ P a := by
  cases x with
  | error e => cases h
  | ok a => exact ⟨a, rfl, of_decide_eq_true h⟩

/-! ## What a computation comes to -/

/-- A result that satisfies `Q`, or an error that satisfies `E`. -/
def Outcome (E : ε → Prop) (Q : α → Prop) : Except ε α → Prop
  | .ok a => Q a
  | .error e => E e

namespace Outcome

variable {E E' : ε → Prop} {Q Q' : α → Prop} {S : β → Prop} {x : Except ε α}

theorem bind {f : α → Except ε β} (h : Outcome E Q x)
    (hf : ∀ a, x = .ok a → Q a → Outcome E S (f a)) : Outcome E S (x >>= f) := by
  cases x with
  | ok a => exact hf a rfl h
  | error e => exact h

theorem mono (h : Outcome E Q x) (hE : ∀ e, E e → E' e) (hQ : ∀ a, Q a → Q' a) :
    Outcome E' Q' x := by
  cases x with
  | ok a => exact hQ a h
  | error e => exact hE e h

theorem of_eq_ok {a : α} (h : Outcome E Q x) (hx : x = .ok a) : Q a := by
  rw [hx] at h
  exact h

theorem of_eq_error {e : ε} (h : Outcome E Q x) (hx : x = .error e) : E e := by
  rw [hx] at h
  exact h

end Outcome

/-! ## Two computations side by side -/

/-- Two computations that fail in the same way or succeed with related results. -/
inductive Both (R : α → β → Prop) : Except ε α → Except ε β → Prop where
  | ok {a : α} {b : β} (h : R a b) : Both R (.ok a) (.ok b)
  | error (e : ε) : Both R (.error e) (.error e)

namespace Both

variable {γ δ : Type} {R : α → β → Prop} {S : γ → δ → Prop}

theorem bind {x : Except ε α} {y : Except ε β} {f : α → Except ε γ} {f' : β → Except ε δ}
    (h : Both R x y) (hf : ∀ a b, R a b → Both S (f a) (f' b)) : Both S (x >>= f) (y >>= f') := by
  cases h with
  | ok h => exact hf _ _ h
  | error e => exact .error e

/-- Two sequences with the same first step. -/
theorem bind_eq {x : Except ε α} {f : α → Except ε γ} {f' : α → Except ε δ}
    (hf : ∀ a, x = .ok a → Both S (f a) (f' a)) : Both S (x >>= f) (x >>= f') := by
  cases x with
  | ok a => exact hf a rfl
  | error e => exact .error e

end Both

end CLib
