import Dca.Lib.Result

/-!
# Iterators

An iterator is called again and again, each time with whatever its surroundings are at that time.
It has items left, gives them one by one, and gives the same last value from then on. Whether the
surroundings have an influence is decided call by call, so an iterator is described by an induction
over its items (`Supplies`), and any sequence of calls follows from the description.
-/

namespace CLib

variable {σ ι α ε : Type} (next : σ → ι → Except ε (σ × α))

/-- What some calls return, for the surroundings at each of them. -/
def outputs : σ → List ι → Except ε (List α)
  | _, [] => .ok []
  | s, i :: is => do
    let (s, a) ← next s i
    return a :: (← outputs s is)

/-- The iterator has the items left, and then `last` for ever, in all surroundings in `P`. -/
inductive Supplies (P : ι → Prop) (last : α) : σ → List α → Prop where
  | nil {s : σ} (h : ∀ i, P i → next s i = .ok (s, last)) : Supplies P last s []
  | cons {s t : σ} {a : α} {items : List α} (h : ∀ i, P i → next s i = .ok (t, a))
      (hrest : Supplies P last t items) : Supplies P last s (a :: items)

/-- The first values of a list, with `last` behind its end. -/
def padded (last : α) (items : List α) (n : Nat) : List α :=
  items.take n ++ List.replicate (n - items.length) last

variable {next} {P : ι → Prop} {last : α} {s : σ} {items : List α}

@[simp] theorem padded_zero : padded last items 0 = [] := by
  rw [padded, List.take_zero, Nat.zero_sub, List.replicate_zero, List.append_nil]

@[simp] theorem padded_nil (n : Nat) : padded last [] n = List.replicate n last := by
  rw [padded, List.take_nil, List.length_nil, Nat.sub_zero, List.nil_append]

@[simp] theorem padded_cons (a : α) (n : Nat) :
    padded last (a :: items) (n + 1) = a :: padded last items n := by
  rw [padded, List.take_succ_cons, List.length_cons, Nat.add_sub_add_right, List.cons_append]
  rfl

/-- Items other than the last value are determined by what the calls return. -/
theorem padded_inj {items' : List α} (h : last ∉ items) (h' : last ∉ items')
    (heq : ∀ n, padded last items n = padded last items' n) : items = items' := by
  induction items generalizing items' with
  | nil =>
    cases items' with
    | nil => rfl
    | cons a items' =>
      have hone := heq 1
      rw [padded_nil, padded_cons, padded_zero] at hone
      exact absurd (List.cons.inj hone).1 fun hlast => h' (hlast ▸ List.mem_cons_self)
  | cons a items ih =>
    cases items' with
    | nil =>
      have hone := heq 1
      rw [padded_nil, padded_cons, padded_zero] at hone
      exact absurd (List.cons.inj hone).1 fun hlast => h (hlast ▸ List.mem_cons_self)
    | cons a' items' =>
      have hcons := fun n => heq (n + 1)
      simp only [padded_cons, List.cons.injEq] at hcons
      rw [(hcons 0).1, ih (fun hmem => h (List.mem_cons_of_mem a hmem))
        (fun hmem => h' (List.mem_cons_of_mem a' hmem)) fun n => (hcons n).2]

theorem Supplies.mono {Q : ι → Prop} (hsub : ∀ i, Q i → P i) (h : Supplies next P last s items) :
    Supplies next Q last s items := by
  induction h with
  | nil hnext => exact .nil fun i hi => hnext i (hsub i hi)
  | cons hnext _ ih => exact .cons (fun i hi => hnext i (hsub i hi)) ih

/-- **The calls return the items and then the last value.** -/
theorem Supplies.outputs_eq (h : Supplies next P last s items) {is : List ι} (his : ∀ i ∈ is, P i) :
    outputs next s is = .ok (padded last items is.length) := by
  induction is generalizing s items with
  | nil => rw [outputs, List.length_nil, padded_zero]
  | cons i is ih =>
    obtain ⟨hi, his⟩ := List.forall_mem_cons.mp his
    cases h with
    | nil hnext =>
      rw [outputs, hnext i hi, ok_bind]
      dsimp only
      rw [ih (.nil hnext) his, ok_bind, List.length_cons, padded_nil, padded_nil,
        List.replicate_succ]
      rfl
    | cons hnext hrest =>
      rw [outputs, hnext i hi, ok_bind]
      dsimp only
      rw [ih hrest his, ok_bind, List.length_cons, padded_cons]
      rfl

end CLib
