import Mathlib.Data.List.Basic

/-!
# Sweeping a queue

A loop takes an element from the front of a queue in each turn and drops it, or puts it back at the
end. It stops when the number of its turns has reached the length of the queue, which its own turns
make shorter. So it may stop before it has seen every element, and then what it has put back is
behind what it has not seen.
-/

namespace CLib

variable {α : Type} (p : α → Bool)

/-- What is put back of some elements. -/
def kept (q : List α) : List α := q.filter fun x => !p x

/-- The loop sees `a` and stops in front of `b`. -/
structure SweepEnds (a b : List α) : Prop where
  stop : (b ++ kept p a).length ≤ a.length
  running : ∀ a' x, a = a' ++ [x] → a'.length < (x :: b ++ kept p a').length

/--
There is nothing to drop among the last elements, one fewer than there are to drop, and bringing
the last ones to the front leaves what is kept in order.
-/
def SweepsClean (q : List α) : Prop :=
  (∀ x ∈ q.drop (q.length + 1 - q.countP p), p x = false) ∧
    kept p (q.drop (q.length - q.countP p)) ++ kept p (q.take (q.length - q.countP p)) = kept p q

instance [DecidableEq α] (q : List α) : Decidable (SweepsClean p q) :=
  inferInstanceAs (Decidable (_ ∧ _))

variable {p} {a b q : List α}

theorem kept_append (a b : List α) : kept p (a ++ b) = kept p a ++ kept p b := List.filter_append ..

theorem kept_of_forall (h : ∀ x ∈ q, p x = false) : kept p q = q :=
  List.filter_eq_self.mpr fun x hx => by rw [h x hx]; rfl

theorem length_eq_kept (q : List α) : q.length = q.countP p + (kept p q).length := by
  rw [List.length_eq_countP_add_countP p, kept, ← List.countP_eq_length_filter]
  congr 1
  exact List.countP_congr fun x _ => by simp

theorem countP_eq_zero_of_forall (h : ∀ x ∈ q, p x = false) : q.countP p = 0 :=
  List.countP_eq_zero.mpr fun x hx => by simp [h x hx]

namespace SweepEnds

/-- There is at least as much to drop in front as there is left. -/
theorem length_le (h : SweepEnds p a b) : b.length ≤ a.countP p := by
  have hstop := h.stop
  rw [List.length_append] at hstop
  have := length_eq_kept (p := p) a
  omega

/-- Before the last turn there was not more to drop. -/
theorem countP_le (h : SweepEnds p a b) {a' : List α} {x : α} (ha : a = a' ++ [x]) :
    a'.countP p ≤ b.length := by
  have hrun := h.running a' x ha
  rw [List.length_append, List.length_cons] at hrun
  have := length_eq_kept (p := p) a'
  omega

/-- **What is brought to the front is what has not been seen**, if there is nothing to drop in it. -/
theorem kept_last (h : SweepEnds p a b) (hb : ∀ x ∈ b, p x = false) :
    kept p ((a ++ b).drop ((a ++ b).length - (a ++ b).countP p)) = b ∧
      kept p ((a ++ b).take ((a ++ b).length - (a ++ b).countP p)) = kept p a := by
  have hcount : (a ++ b).countP p = a.countP p := by
    rw [List.countP_append, countP_eq_zero_of_forall hb, Nat.add_zero]
  rw [hcount, List.length_append]
  have hle := h.length_le
  rcases Nat.eq_or_lt_of_le hle with heq | hlt
  · rw [← heq, Nat.add_sub_cancel, List.drop_left, List.take_left]
    exact ⟨kept_of_forall hb, rfl⟩
  · -- the last element that has been seen was dropped
    obtain ⟨a', x, rfl⟩ : ∃ a' x, a = a' ++ [x] := by
      rcases List.eq_nil_or_concat' a with rfl | ⟨a', x, rfl⟩
      · exact absurd hlt (Nat.not_lt_zero _)
      · exact ⟨a', x, rfl⟩
    have hold := h.countP_le rfl
    rw [List.countP_append, List.countP_singleton] at hlt ⊢
    have hx : p x = true := by
      by_contra hx
      rw [if_neg hx] at hlt
      omega
    rw [if_pos hx] at hlt ⊢
    have hsplit : (a' ++ [x]).length + b.length - (a'.countP p + 1) = a'.length := by
      rw [List.length_append, List.length_singleton]
      omega
    have hdropped : kept p [x] = [] := by simp [kept, hx]
    rw [hsplit, List.append_assoc, List.drop_left, List.take_left, kept_append, kept_append,
      hdropped, kept_of_forall hb, List.append_nil]
    exact ⟨rfl, rfl⟩

/-- **The loop leaves what it should in exactly these queues.** -/
theorem eq_kept_iff (h : SweepEnds p a b) :
    b ++ kept p a = kept p (a ++ b) ↔ SweepsClean p (a ++ b) := by
  constructor
  · intro heq
    -- what has not been seen has its full length
    have hb : ∀ x ∈ b, p x = false := by
      have hlen := congrArg List.length heq
      rw [kept_append, List.length_append, List.length_append] at hlen
      have hzero : b.countP p = 0 := by
        have := length_eq_kept (p := p) b
        omega
      intro x hx
      simpa using List.countP_eq_zero.mp hzero x hx
    obtain ⟨hlast, hfirst⟩ := h.kept_last hb
    refine ⟨?_, ?_⟩
    · intro x hx
      refine hb x ?_
      have hcount : (a ++ b).countP p ≤ b.length + 1 := by
        rw [List.countP_append, countP_eq_zero_of_forall hb]
        rcases List.eq_nil_or_concat' a with rfl | ⟨a', y, rfl⟩
        · exact Nat.zero_le _
        · have := h.countP_le rfl
          rw [List.countP_append, List.countP_singleton]
          split_ifs <;> omega
      rw [List.drop_append, List.drop_eq_nil_of_le (by
        rw [List.length_append]
        omega), List.nil_append] at hx
      exact List.mem_of_mem_drop hx
    · rw [hlast, hfirst]
      exact heq
  · rintro ⟨hclean, horder⟩
    have hb : ∀ x ∈ b, p x = false := by
      have hle := h.length_le
      by_cases hzero : b.countP p = 0
      · intro x hx
        simpa using List.countP_eq_zero.mp hzero x hx
      · intro x hx
        refine hclean x ?_
        rw [List.countP_append, List.length_append, List.drop_append]
        refine List.mem_append_right _ ?_
        rw [show a.length + b.length + 1 - (a.countP p + b.countP p) - a.length = 0 by omega]
        exact hx
    obtain ⟨hlast, hfirst⟩ := h.kept_last hb
    rw [hlast, hfirst] at horder
    exact horder

end SweepEnds

end CLib
