import Mathlib.Data.List.TakeWhile

/-!
# Splitting at separators

The non-empty pieces of a list between separators, and how they come off its front.
-/

namespace CLib

variable {α : Type} [DecidableEq α] (sep : α)

/-- The non-empty pieces of `l` between separators. -/
def components (l : List α) : List (List α) := (l.splitOn sep).filter (· ≠ [])

@[simp] theorem components_nil : components sep ([] : List α) = [] := by
  simp [components, List.splitOn_nil]

@[simp] theorem components_sep_cons (l : List α) : components sep (sep :: l) = components sep l := by
  have h : (([] : List α) ++ sep :: l).splitOn sep = [] :: l.splitOn sep :=
    List.splitOn_append_cons_self_of_not_mem List.not_mem_nil l
  rw [List.nil_append] at h
  simp [components, h]

theorem components_dropWhile (l : List α) :
    components sep (l.dropWhile (· = sep)) = components sep l := by
  induction l with
  | nil => rfl
  | cons a l ih =>
    by_cases ha : a = sep
    · subst ha
      rw [List.dropWhile_cons_of_pos (by simp), components_sep_cons]
      exact ih
    · rw [List.dropWhile_cons_of_neg (by simpa using ha)]

variable {sep}

/-- A list without separators is one piece. -/
theorem components_of_not_mem {w : List α} (hw : w ≠ []) (hs : sep ∉ w) :
    components sep w = [w] := by
  simp [components, List.splitOn_eq_singleton hs, hw]

theorem components_append_sep {w l : List α} (hw : w ≠ []) (hs : sep ∉ w) :
    components sep (w ++ sep :: l) = w :: components sep l := by
  simp [components, List.splitOn_append_cons_self_of_not_mem hs, hw]

variable (sep)

/-- The piece at the front of a list. -/
def frontPiece (l : List α) : List α := l.takeWhile (· ≠ sep)

theorem not_mem_frontPiece (l : List α) : sep ∉ frontPiece sep l := by
  intro h
  have hne := List.mem_takeWhile_imp h
  simp at hne

theorem frontPiece_ne_nil {a : α} {l : List α} (ha : a ≠ sep) : frontPiece sep (a :: l) ≠ [] := by
  simp [frontPiece, ha]

/-- **The first piece comes off the front of a list that does not begin with a separator.** -/
theorem components_cons {a : α} {l : List α} (ha : a ≠ sep) :
    components sep (a :: l)
      = frontPiece sep (a :: l)
        :: components sep (((a :: l).dropWhile (· ≠ sep)).dropWhile (· = sep)) := by
  have hw := frontPiece_ne_nil sep (l := l) ha
  have hs := not_mem_frontPiece sep (a :: l)
  have hsplit : frontPiece sep (a :: l) ++ (a :: l).dropWhile (· ≠ sep) = a :: l :=
    List.takeWhile_append_dropWhile
  rw [components_dropWhile]
  cases hd : (a :: l).dropWhile (· ≠ sep) with
  | nil =>
    rw [hd, List.append_nil] at hsplit
    rw [components_nil, ← components_of_not_mem hw hs, hsplit]
  | cons b r =>
    have hb : b = sep := by
      have hhead := List.head?_dropWhile_not (fun x => decide (x ≠ sep)) (a :: l)
      rw [hd] at hhead
      simpa using hhead
    subst hb
    rw [hd] at hsplit
    rw [components_sep_cons, ← components_append_sep hw hs, hsplit]

theorem components_ne_nil {l : List α} {a : α} (ha : a ∈ l) (hne : a ≠ sep) :
    components sep l ≠ [] := by
  induction l with
  | nil => cases ha
  | cons b l ih =>
    by_cases hb : b = sep
    · subst hb
      rw [components_sep_cons]
      exact ih ((List.mem_cons.mp ha).resolve_left hne)
    · rw [components_cons sep hb]
      exact List.cons_ne_nil _ _

/-- Every piece is taken from the list. -/
theorem subset_of_mem_components {l w : List α} (h : w ∈ components sep l) : w ⊆ l := by
  induction hn : l.length using Nat.strong_induction_on generalizing l with
  | _ n ih =>
    cases l with
    | nil => simp at h
    | cons a l =>
      rw [List.length_cons] at hn
      by_cases ha : a = sep
      · subst ha
        rw [components_sep_cons] at h
        exact List.Subset.trans (ih l.length (by omega) h rfl) (List.subset_cons_self a l)
      · rw [components_cons sep ha, List.mem_cons] at h
        rcases h with rfl | h
        · exact (List.takeWhile_sublist _).subset
        · have hsub : (((a :: l).dropWhile (· ≠ sep)).dropWhile (· = sep)).Sublist l := by
            rw [List.dropWhile_cons_of_pos (by simpa using ha)]
            exact (List.dropWhile_sublist _).trans (List.dropWhile_sublist _)
          have hlen := hsub.length_le
          exact List.Subset.trans (ih _ (by omega) h rfl)
            (List.Subset.trans hsub.subset (List.subset_cons_self a l))

end CLib
