import Dca.Lib.Fuel
import Dca.Lib.Iterator

/-!
# Objects of a shared system

A system has shared variables and objects, which it makes as it runs. A call on an object reads and
writes that object and the shared variables. An object follows a machine of its own when each of its
replies is the reply of the machine, whatever the shared variables hold; and then it does so in every
run, whatever is done to the other objects in between.
-/

namespace CLib

variable {σ τ κ ρ ε α : Type}

/-- A call on an object with its reply, or something else that the system does. -/
inductive Event (κ ρ ε : Type) where
  | call (i : Nat) (k : κ) (r : ρ)
  | other (e : ε)

/-- The calls on an object with their replies. -/
def callsOn (i : Nat) : List (Event κ ρ ε) → List (κ × ρ)
  | [] => []
  | .call j k r :: es => if j = i then (k, r) :: callsOn i es else callsOn i es
  | .other _ :: es => callsOn i es

/-- The calls with what a machine replies to them one after the other. -/
def answered (step : α → κ → α × ρ) : α → List κ → List (κ × ρ)
  | _, [] => []
  | a, k :: ks => (k, (step a k).2) :: answered step (step a k).1 ks

/-- The machine behind some calls. -/
def behind (step : α → κ → α × ρ) : α → List κ → α
  | a, [] => a
  | a, k :: ks => behind step (step a k).1 ks

variable (call : σ → τ → κ → Option (σ × τ × ρ)) (other : σ → ε → Option (σ × List τ))

/-- A run of the system. What it does otherwise may make objects. -/
inductive Events : σ × List τ → List (Event κ ρ ε) → σ × List τ → Prop where
  | nil (x : σ × List τ) : Events x [] x
  | call {s s' : σ} {objects : List τ} {i : Nat} {t t' : τ} {k : κ} {r : ρ}
      {es : List (Event κ ρ ε)} {y : σ × List τ} (hi : objects[i]? = some t)
      (hcall : call s t k = some (s', t', r)) (hrest : Events (s', objects.set i t') es y) :
      Events (s, objects) (.call i k r :: es) y
  | other {s s' : σ} {objects made : List τ} {e : ε} {es : List (Event κ ρ ε)} {y : σ × List τ}
      (hother : other s e = some (s', made)) (hrest : Events (s', objects ++ made) es y) :
      Events (s, objects) (.other e :: es) y

/-- Everything keeps `I`. -/
structure KeepsShared (I : σ → Prop) : Prop where
  call : ∀ s t k s' t' r, I s → call s t k = some (s', t', r) → I s'
  other : ∀ s e s' made, I s → other s e = some (s', made) → I s'

/-- Objects that stand for states of the machine reply as the machine does, in all states in `I`, and
take every call that is due. -/
structure Obeys (I : σ → Prop) (step : α → κ → α × ρ) (due : α → κ → Prop) (R : τ → α → Prop) :
    Prop where
  reply : ∀ s t a k s' t' r, I s → R t a → call s t k = some (s', t', r) →
    R t' (step a k).1 ∧ r = (step a k).2
  takes : ∀ s t a k, I s → R t a → due a k → (call s t k).isSome

variable {call other} {I : σ → Prop} {step : α → κ → α × ρ} {due : α → κ → Prop} {R : τ → α → Prop}

theorem Events.keeps (hkeep : KeepsShared call other I) {x y : σ × List τ} {es : List (Event κ ρ ε)}
    (h : Events call other x es y) (hx : I x.1) : I y.1 := by
  induction h with
  | nil x => exact hx
  | call hi hcall hrest ih => exact ih (hkeep.call _ _ _ _ _ _ hx hcall)
  | other hother hrest ih => exact ih (hkeep.other _ _ _ _ hx hother)

theorem Events.obeys (hkeep : KeepsShared call other I) (hobeys : Obeys call I step due R)
    {x y : σ × List τ} {es : List (Event κ ρ ε)} (h : Events call other x es y) (hx : I x.1)
    {i : Nat} {t : τ} {a : α} (hi : x.2[i]? = some t) (ht : R t a) :
    callsOn i es = answered step a ((callsOn i es).map Prod.fst) ∧
      ∃ t', y.2[i]? = some t' ∧ R t' (behind step a ((callsOn i es).map Prod.fst)) := by
  induction h generalizing t a with
  | nil x => exact ⟨rfl, t, hi, ht⟩
  | @call s s' objects j u u' k r es y hj hcall hrest ih =>
    have hs' := hkeep.call s u k s' u' r hx hcall
    have hlt : j < objects.length := (List.getElem?_eq_some_iff.mp hj).1
    by_cases hji : j = i
    · subst hji
      obtain rfl : u = t := Option.some.inj (hj.symm.trans hi)
      obtain ⟨hu', rfl⟩ := hobeys.reply s u a k s' u' r hx ht hcall
      obtain ⟨hcalls, hend⟩ := ih hs' (List.getElem?_set_self hlt) hu'
      simp only [callsOn, if_true, List.map_cons, answered, behind]
      rw [← hcalls]
      exact ⟨rfl, hend⟩
    · have hi' : (objects.set j u')[i]? = some t := by
        rw [List.getElem?_set_ne hji]
        exact hi
      simp only [callsOn, if_neg hji]
      exact ih hs' hi' ht
  | @other s s' objects made e es y hother hrest ih =>
    have hi' : (objects ++ made)[i]? = some t := by
      rw [List.getElem?_append_left (List.getElem?_eq_some_iff.mp hi).1]
      exact hi
    exact ih (hkeep.other s e s' made hx hother) hi' ht

/-- **In every run an object gets the replies of its machine**, and it takes every call that is due
then. -/
theorem Events.follows (hkeep : KeepsShared call other I) (hobeys : Obeys call I step due R)
    {x y : σ × List τ} {es : List (Event κ ρ ε)} (h : Events call other x es y) (hx : I x.1)
    {i : Nat} {t : τ} {a : α} (hi : x.2[i]? = some t) (ht : R t a) :
    callsOn i es = answered step a ((callsOn i es).map Prod.fst) ∧
      ∃ t', y.2[i]? = some t' ∧
        ∀ k, due (behind step a ((callsOn i es).map Prod.fst)) k → (call y.1 t' k).isSome := by
  obtain ⟨hcalls, t', ht', hR⟩ := h.obeys hkeep hobeys hx hi ht
  exact ⟨hcalls, t', ht', fun k hk => hobeys.takes _ _ _ k (h.keeps hkeep hx) hR hk⟩

/-- One object that is called with fuel: the outputs of its calls are the replies of the machine. -/
theorem ends_outputs {next : Nat → τ → κ → Except ε (τ × ρ)} {E : ε → Prop}
    (hnext : ∀ t a k, R t a → Ends E (fun r => R r.1 (step a k).1 ∧ r.2 = (step a k).2)
      fun n => next n t k) (ks : List κ) {t : τ} {a : α} (ht : R t a) :
    Ends E (fun out => out = (answered step a ks).map Prod.snd) fun n => outputs (next n) t ks := by
  induction ks generalizing t a with
  | nil => exact .const rfl
  | cons k ks ih =>
    simp only [outputs]
    refine (hnext t a k ht).bind ?_
    rintro ⟨t', r⟩ ⟨ht', rfl⟩
    refine (ih ht').bind ?_
    rintro out rfl
    exact .const rfl

end CLib
