import Mathlib.Tactic.Basic

/-!
# Runs of a state machine

A machine takes labelled steps, each of which may be impossible. A run is a list of labels. What
one step preserves under a condition on it, a run preserves whose steps all meet the condition.
-/

namespace CLib

variable {σ ε : Type} (step : σ → ε → Option σ)

/-- The state after some steps, if all of them are possible. -/
def run : σ → List ε → Option σ
  | s, [] => some s
  | s, e :: es => (step s e).bind (run · es)

/-- Every step that is taken meets the condition, in the state before it. -/
def Meets (C : σ → ε → Prop) : σ → List ε → Prop
  | _, [] => True
  | s, e :: es => C s e ∧ ∀ t ∈ step s e, Meets C t es

instance Meets.decidable (C : σ → ε → Prop) [∀ s e, Decidable (C s e)] :
    ∀ s es, Decidable (Meets step C s es)
  | _, [] => .isTrue trivial
  | s, e :: es =>
    have : ∀ t, Decidable (Meets step C t es) := fun t => Meets.decidable C t es
    inferInstanceAs (Decidable (C s e ∧ ∀ t ∈ step s e, Meets step C t es))

variable {step}

@[simp] theorem run_nil (s : σ) : run step s [] = some s := rfl

theorem run_cons_eq_some {s t : σ} {e : ε} {es : List ε} :
    run step s (e :: es) = some t ↔ ∃ u, step s e = some u ∧ run step u es = some t := by
  rw [run, Option.bind_eq_some_iff]

theorem run_append_eq_some {s t : σ} {es es' : List ε} :
    run step s (es ++ es') = some t ↔ ∃ u, run step s es = some u ∧ run step u es' = some t := by
  induction es generalizing s with
  | nil => simp
  | cons e es ih =>
    rw [List.cons_append, run_cons_eq_some]
    simp only [ih, run_cons_eq_some]
    constructor
    · rintro ⟨u, hu, v, hv, ht⟩
      exact ⟨v, ⟨u, hu, hv⟩, ht⟩
    · rintro ⟨v, ⟨u, hu, hv⟩, ht⟩
      exact ⟨u, hu, v, hv, ht⟩

/-- A run on fixed labels, evaluated. -/
theorem exists_run_of_any {s : σ} {es : List ε} {P : σ → Prop} [DecidablePred P]
    (h : (run step s es).any (fun t => P t) = true) : ∃ t, run step s es = some t ∧ P t := by
  cases hrun : run step s es with
  | none =>
    rw [hrun] at h
    cases h
  | some t =>
    rw [hrun] at h
    exact ⟨t, rfl, of_decide_eq_true h⟩

variable {C : σ → ε → Prop} {I : σ → Prop}

/-- What every step preserves that meets the condition, a run preserves. -/
theorem run_invariant (hstep : ∀ s e t, C s e → I s → step s e = some t → I t) {s t : σ}
    {es : List ε} (hc : Meets step C s es) (hs : I s) (hrun : run step s es = some t) : I t := by
  induction es generalizing s with
  | nil =>
    obtain rfl := Option.some.inj hrun
    exact hs
  | cons e es ih =>
    obtain ⟨u, hu, hrun⟩ := run_cons_eq_some.mp hrun
    exact ih (hc.2 u hu) (hstep s e u hc.1 hs hu) hrun

/-- What every step preserves, every run preserves. -/
theorem run_preserves (hstep : ∀ s e t, I s → step s e = some t → I t) {s t : σ} {es : List ε}
    (hs : I s) (hrun : run step s es = some t) : I t := by
  induction es generalizing s with
  | nil =>
    obtain rfl := Option.some.inj hrun
    exact hs
  | cons e es ih =>
    obtain ⟨u, hu, hrun⟩ := run_cons_eq_some.mp hrun
    exact ih (hstep s e u hs hu) hrun

/-- A run that goes on. -/
theorem Meets.append {s t : σ} {es es' : List ε} (h : Meets step C s es)
    (hrun : run step s es = some t) (h' : Meets step C t es') : Meets step C s (es ++ es') := by
  induction es generalizing s with
  | nil =>
    obtain rfl := Option.some.inj hrun
    exact h'
  | cons e es ih =>
    obtain ⟨u, hu, hrun⟩ := run_cons_eq_some.mp hrun
    refine ⟨h.1, fun v hv => ?_⟩
    obtain rfl := Option.some.inj (hu.symm.trans hv)
    exact ih (h.2 u hu) hrun

theorem Meets.of_append {s t : σ} {es es' : List ε} (h : Meets step C s (es ++ es'))
    (hrun : run step s es = some t) : Meets step C t es' := by
  induction es generalizing s with
  | nil =>
    obtain rfl := Option.some.inj hrun
    exact h
  | cons e es ih =>
    obtain ⟨u, hu, hrun⟩ := run_cons_eq_some.mp hrun
    exact ih (h.2 u hu) hrun

theorem Meets.of_prefix {s : σ} {es es' : List ε} (h : Meets step C s (es ++ es')) :
    Meets step C s es := by
  induction es generalizing s with
  | nil => trivial
  | cons e es ih => exact ⟨h.1, fun t ht => ih (h.2 t ht)⟩

theorem Meets.imp {D : σ → ε → Prop} (hcd : ∀ s e, C s e → D s e) {s : σ} {es : List ε}
    (h : Meets step C s es) : Meets step D s es := by
  induction es generalizing s with
  | nil => trivial
  | cons e es ih => exact ⟨hcd s e h.1, fun t ht => ih (h.2 t ht)⟩

theorem Meets.and {D : σ → ε → Prop} {s : σ} {es : List ε} (hc : Meets step C s es)
    (hd : Meets step D s es) : Meets step (fun s e => C s e ∧ D s e) s es := by
  induction es generalizing s with
  | nil => trivial
  | cons e es ih => exact ⟨⟨hc.1, hd.1⟩, fun t ht => ih (hc.2 t ht) (hd.2 t ht)⟩

/-- A condition on the labels alone. -/
theorem Meets.of_forall {D : ε → Prop} {s : σ} {es : List ε} (h : ∀ e ∈ es, D e) :
    Meets step (fun _ e => D e) s es := by
  induction es generalizing s with
  | nil => trivial
  | cons e es ih =>
    obtain ⟨he, hes⟩ := List.forall_mem_cons.mp h
    exact ⟨he, fun t _ => ih hes⟩

/-- Repeating a step leads to one state at most in which it is not possible any more. -/
theorem run_replicate_unique {s t t' : σ} {e : ε} {n m : Nat}
    (hrun : run step s (List.replicate n e) = some t) (hend : step t e = none)
    (hrun' : run step s (List.replicate m e) = some t') (hend' : step t' e = none) : t = t' := by
  induction n generalizing s m with
  | zero =>
    obtain rfl := Option.some.inj hrun
    cases m with
    | zero => exact Option.some.inj hrun'
    | succ m =>
      obtain ⟨u, hu, -⟩ := run_cons_eq_some.mp hrun'
      rw [hend] at hu
      cases hu
  | succ n ih =>
    obtain ⟨u, hu, hrun⟩ := run_cons_eq_some.mp hrun
    cases m with
    | zero =>
      obtain rfl := Option.some.inj hrun'
      rw [hend'] at hu
      cases hu
    | succ m =>
      obtain ⟨u', hu', hrun'⟩ := run_cons_eq_some.mp hrun'
      obtain rfl := Option.some.inj (hu.symm.trans hu')
      exact ih hrun hrun'

/-! ## History variables -/

section History

variable {β : Type} (step) (update : σ → ε → σ → β → β)

/-- The machine with a variable that records its steps and that no step reads. -/
def withHistory (x : σ × β) (e : ε) : Option (σ × β) :=
  (step x.1 e).map fun t => (t, update x.1 e t x.2)

variable {step update} {x y : σ × β} {e : ε} {es : List ε}

theorem withHistory_eq_some :
    withHistory step update x e = some y ↔ step x.1 e = some y.1 ∧ y.2 = update x.1 e y.1 x.2 := by
  rw [withHistory, Option.map_eq_some_iff]
  constructor
  · rintro ⟨t, ht, rfl⟩
    exact ⟨ht, rfl⟩
  · rintro ⟨ht, hy⟩
    exact ⟨y.1, ht, by rw [← hy]⟩

/-- What every step preserves of the state and the history, every run preserves. -/
theorem history_preserves {I : σ → β → Prop}
    (hstep : ∀ s e t b, I s b → step s e = some t → I t (update s e t b))
    (hx : I x.1 x.2) (hrun : run (withHistory step update) x es = some y) : I y.1 y.2 := by
  refine run_preserves (I := fun x : σ × β => I x.1 x.2) ?_ hx hrun
  intro x e y hI hxy
  obtain ⟨ht, hb⟩ := withHistory_eq_some.mp hxy
  rw [hb]
  exact hstep x.1 e y.1 x.2 hI ht

end History

end CLib
