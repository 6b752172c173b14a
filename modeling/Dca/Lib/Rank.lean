import Dca.Lib.Run

/-!
# Runs that come to an end

Some turns of a machine count, and each of them brings a number down that no other turn brings up.
Then the number bounds how many of them there can be, in whatever order the turns are taken.
-/

namespace CLib

variable {σ ε : Type} (step : σ → ε → Option σ) (counts : σ → ε → Bool)

/-- How many turns of a run count. -/
def turns : σ → List ε → Nat
  | _, [] => 0
  | s, e :: es => (counts s e).toNat + (step s e).elim 0 fun t => turns t es

/-- Under a condition on the steps the rank bounds the turns that count. -/
structure Ranked (C : σ → ε → Prop) (I : σ → Prop) (rank : σ → Nat) : Prop where
  keep : ∀ s e t, C s e → I s → step s e = some t → I t
  down : ∀ s e t, C s e → I s → step s e = some t → rank t + (counts s e).toNat ≤ rank s

variable {step counts} {C : σ → ε → Prop} {I : σ → Prop} {rank : σ → Nat}

/-- **What counts in a run and what is left of the rank.** -/
theorem Ranked.turns_le (h : Ranked step counts C I rank) {s t : σ} {es : List ε}
    (hc : Meets step C s es) (hs : I s) (hrun : run step s es = some t) :
    turns step counts s es + rank t ≤ rank s := by
  induction es generalizing s with
  | nil =>
    obtain rfl := Option.some.inj hrun
    simp [turns]
  | cons e es ih =>
    obtain ⟨u, hu, hrun⟩ := run_cons_eq_some.mp hrun
    have hrest := ih (hc.2 u hu) (h.keep s e u hc.1 hs hu) hrun
    have hdown := h.down s e u hc.1 hs hu
    rw [turns, hu]
    dsimp only [Option.elim_some]
    omega

end CLib
