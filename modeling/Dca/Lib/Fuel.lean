import Mathlib.Order.Filter.AtTopBot.Basic
import Dca.Lib.Result

/-!
# Loops that come to an end

A loop is a function of the fuel that bounds its rounds. It ends when its result is the same for
every amount of fuel from some amount on. The rules follow the construction of a computation, so a
loop is shown to end by an induction on what it walks over.
-/

namespace CLib

variable {ε α β : Type}

/-- With enough fuel there is one result, and this satisfies `Q`, or it is an error in `E`. -/
def Ends (E : ε → Prop) (Q : α → Prop) (f : Nat → Except ε α) : Prop :=
  ∃ r, (∀ᶠ n in Filter.atTop, f n = r) ∧ Outcome E Q r

namespace Ends

variable {E E' : ε → Prop} {Q Q' : α → Prop} {S : β → Prop} {f : Nat → Except ε α}

theorem const {r : Except ε α} (h : Outcome E Q r) : Ends E Q fun _ => r :=
  ⟨r, Filter.Eventually.of_forall fun _ => rfl, h⟩

theorem mono (h : Ends E Q f) (hE : ∀ e, E e → E' e) (hQ : ∀ a, Q a → Q' a) : Ends E' Q' f := by
  obtain ⟨r, hr, hout⟩ := h
  exact ⟨r, hr, hout.mono hE hQ⟩

/-- One round needs one more unit. -/
theorem succ (h : Ends E Q fun n => f (n + 1)) : Ends E Q f := by
  obtain ⟨r, hr, hout⟩ := h
  obtain ⟨N, hN⟩ := Filter.eventually_atTop.mp hr
  refine ⟨r, Filter.eventually_atTop.mpr ⟨N + 1, fun n hn => ?_⟩, hout⟩
  obtain ⟨m, rfl⟩ : ∃ m, n = m + 1 := ⟨n - 1, by omega⟩
  exact hN m (by omega)

/-- A step that does not loop. -/
theorem step {x : Except ε α} {k : α → Nat → Except ε β} (h : Outcome E Q x)
    (hk : ∀ a, x = .ok a → Q a → Ends E S (k a)) : Ends E S fun n => x >>= fun a => k a n := by
  cases x with
  | ok a => exact hk a rfl h
  | error e => exact .const h

theorem bind {k : α → Nat → Except ε β} (h : Ends E Q f) (hk : ∀ a, Q a → Ends E S (k a)) :
    Ends E S fun n => f n >>= fun a => k a n := by
  obtain ⟨r, hr, hout⟩ := h
  cases r with
  | error e =>
    refine ⟨.error e, hr.mono fun n hn => ?_, hout⟩
    dsimp only
    rw [hn, error_bind]
  | ok a =>
    obtain ⟨r', hr', hout'⟩ := hk a hout
    refine ⟨r', (hr.and hr').mono ?_, hout'⟩
    rintro n ⟨hn, hn'⟩
    dsimp only
    rw [hn, ok_bind]
    exact hn'

/-- What holds at the end holds of a result, if more fuel does not change it. -/
theorem of_eq_ok (h : Ends E Q f) (hmono : ∀ n a, f n = .ok a → f (n + 1) = .ok a) {n : Nat}
    {a : α} (hn : f n = .ok a) : Q a := by
  obtain ⟨r, hr, hout⟩ := h
  obtain ⟨N, hN⟩ := Filter.eventually_atTop.mp hr
  have hlarge : ∀ k, f (n + k) = .ok a := by
    intro k
    induction k with
    | zero => exact hn
    | succ k ih => exact hmono _ _ ih
  exact hout.of_eq_ok ((hN (n + N) (by omega)).symm.trans (hlarge N))

/-- In terms of the fuel. -/
theorem exists_fuel (h : Ends E Q f) : ∃ N r, (∀ n ≥ N, f n = r) ∧ Outcome E Q r := by
  obtain ⟨r, hr, hout⟩ := h
  obtain ⟨N, hN⟩ := Filter.eventually_atTop.mp hr
  exact ⟨N, r, hN, hout⟩

end Ends

end CLib
