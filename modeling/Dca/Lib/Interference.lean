import Dca.Lib.Run

/-!
# A thread among others

A thread has variables of its own and shares others with the rest of the system. Its steps and the
steps of the rest follow each other in any order. When no step of the rest can change what a step
of the thread does to the thread's own variables, the thread gets as far as it gets alone: it can
always go on, it needs as many steps as alone, and it ends with the same own variables.
-/

namespace CLib

variable {σ τ ε : Type}

/-- Whose turn it is. -/
inductive Turn (ε : Type) where
  /-- A step of the thread. -/
  | own
  /-- A step of the rest. -/
  | other (e : ε)

/-- The number of steps of the thread. -/
def ownTurns : List (Turn ε) → Nat
  | [] => 0
  | .own :: turns => ownTurns turns + 1
  | .other _ :: turns => ownTurns turns

variable (own : σ → τ → Option (σ × τ)) (other : σ → ε → Option σ)

/-- One step, of the thread or of the rest. -/
def takeTurn (x : σ × τ) : Turn ε → Option (σ × τ)
  | .own => own x.1 x.2
  | .other e => (other x.1 e).map fun s => (s, x.2)

/-- Under `I` the step of the thread at `t` leaves the same own variables for all shared variables,
and keeps `I`. -/
structure Unaffected (I : σ → Prop) (t : τ) : Prop where
  same : ∀ s₁ s₂, I s₁ → I s₂ → (own s₁ t).map Prod.snd = (own s₂ t).map Prod.snd
  keep : ∀ s s' t', I s → own s t = some (s', t') → I s'

/-- From `x` on the thread alone comes to `y` in `n` steps, unaffected in every state on the way. -/
inductive Passes (I : σ → Prop) : Nat → σ × τ → σ × τ → Prop where
  | refl (x : σ × τ) : Passes I 0 x x
  | step {n : Nat} {x y z : σ × τ} (hx : I x.1) (h : own x.1 x.2 = some y)
      (hun : Unaffected own I x.2) (rest : Passes I n y z) : Passes I (n + 1) x z

variable {own other} {I : σ → Prop}

theorem Passes.trans {n m : Nat} {x y z : σ × τ} (h : Passes own I n x y)
    (h' : Passes own I m y z) : Passes own I (n + m) x z := by
  induction h with
  | refl x =>
    rw [Nat.zero_add]
    exact h'
  | @step n x u y hx hown hun rest ih =>
    rw [Nat.succ_add]
    exact .step hx hown hun (ih h')

/--
**In any order of steps the thread is where it would be alone after as many steps of its own**, if it
stops at `y`.
-/
theorem Passes.among (hother : ∀ s e s', I s → other s e = some s' → I s') {n : Nat}
    {x y : σ × τ} (h : Passes own I n x y) (hstop : ∀ s, own s y.2 = none) {turns : List (Turn ε)}
    {s : σ} (hs : I s) {z : σ × τ} (hrun : run (takeTurn own other) (s, x.2) turns = some z) :
    I z.1 ∧ ownTurns turns ≤ n ∧ (ownTurns turns = n → z.2 = y.2) ∧
      (ownTurns turns < n → ∃ u, takeTurn own other z .own = some u) := by
  induction turns generalizing n x s with
  | nil =>
    obtain rfl := Option.some.inj hrun
    refine ⟨hs, Nat.zero_le n, ?_, ?_⟩
    · rintro rfl
      cases h with
      | refl x => rfl
    · intro hn
      cases h with
      | refl x => cases hn
      | @step n x u y hx hown hun rest =>
        -- a step that is possible alone is possible here
        have hsame := hun.same x.1 s hx hs
        rw [hown] at hsame
        obtain ⟨v, hv, -⟩ := Option.map_eq_some_iff.mp hsame.symm
        exact ⟨v, hv⟩
  | cons turn turns ih =>
    obtain ⟨u, hu, hrun⟩ := run_cons_eq_some.mp hrun
    cases turn with
    | other e =>
      obtain ⟨s', hs', rfl⟩ := Option.map_eq_some_iff.mp hu
      exact ih h (hother s e s' hs hs') hrun
    | own =>
      cases h with
      | refl x =>
        have hnone := (hstop s).symm.trans hu
        cases hnone
      | @step n x v y hx hown hun rest =>
        obtain ⟨s', t'⟩ := u
        have hu' : own s x.2 = some (s', t') := hu
        have hsame := hun.same x.1 s hx hs
        rw [hown, hu'] at hsame
        obtain rfl : v.2 = t' := Option.some.inj hsame
        obtain ⟨hz, hle, hend, hgo⟩ := ih rest (hun.keep s s' v.2 hs hu') hrun
        exact ⟨hz, Nat.succ_le_succ hle, fun hn => hend (Nat.succ.inj hn),
          fun hn => hgo (Nat.lt_of_succ_lt_succ hn)⟩

/-! ## A thread that follows a computation -/

section Computes

variable {κ β γ : Type} {stop : κ → τ → Prop} {x : σ × τ} {b : β}

variable (stop) in
/-- Where a computation leads: `Q` for its result, or `stop` where it fails. -/
def LeadsTo (Q : β → σ × τ → Prop) : Except κ β → σ × τ → Prop
  | .ok b, y => Q b y
  | .error e, y => stop e y.2

variable (own I stop) in
/-- From `x` on the thread alone comes to where a computation leads. -/
def Computes (x : σ × τ) (r : Except κ β) (Q : β → σ × τ → Prop) : Prop :=
  ∃ n y, Passes own I n x y ∧ I y.1 ∧ LeadsTo stop Q r y

theorem Computes.pure {Q : β → σ × τ → Prop} (hx : I x.1) (h : Q b x) :
    Computes own I stop x (.ok b) Q := ⟨0, x, .refl x, hx, h⟩

theorem Computes.error {Q : β → σ × τ → Prop} {e : κ} (hx : I x.1) (h : stop e x.2) :
    Computes own I stop x (.error e) Q := ⟨0, x, .refl x, hx, h⟩

theorem Computes.step {r : Except κ β} {Q : β → σ × τ → Prop} {y : σ × τ} (hx : I x.1)
    (h : own x.1 x.2 = some y) (hun : Unaffected own I x.2) (rest : Computes own I stop y r Q) :
    Computes own I stop x r Q := by
  obtain ⟨n, z, hpass, hz⟩ := rest
  exact ⟨n + 1, z, .step hx h hun hpass, hz⟩

/-- The thread goes on from where the first part has led it. -/
theorem Computes.bind {r : Except κ β} {f : β → Except κ γ} {Q : β → σ × τ → Prop}
    {Q' : γ → σ × τ → Prop} (h : Computes own I stop x r Q)
    (hf : ∀ b y, r = .ok b → I y.1 → Q b y → Computes own I stop y (f b) Q') :
    Computes own I stop x (r >>= f) Q' := by
  obtain ⟨n, y, hpass, hy, hr⟩ := h
  cases r with
  | error e => exact ⟨n, y, hpass, hy, hr⟩
  | ok b =>
    obtain ⟨m, z, hpass', hz⟩ := hf b y rfl hy hr
    exact ⟨n + m, z, hpass.trans hpass', hz⟩

end Computes

end CLib
