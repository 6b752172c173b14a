import Mathlib.Tactic.Basic

/-!
# Reading a list from a position

A read gives the items from a position on, as many as are asked for and as there are, and the
position goes on behind them. Reads one after the other give the parts of the list end to end.
-/

namespace CLib

variable {α : Type}

/-- What a read of `n` items from the position gives. -/
def chunk (xs : List α) (pos n : Nat) : List α := (xs.drop pos).take n

/-- What reads of the given lengths give, one after the other. -/
def chunks (xs : List α) : Nat → List Nat → List (List α)
  | _, [] => []
  | pos, n :: ns => chunk xs pos n :: chunks xs (pos + (chunk xs pos n).length) ns

theorem length_chunk (xs : List α) (pos n : Nat) :
    (chunk xs pos n).length = min n (xs.length - pos) := by
  rw [chunk, List.length_take, List.length_drop]

theorem chunk_of_le {xs : List α} {pos : Nat} (h : xs.length ≤ pos) (n : Nat) :
    chunk xs pos n = [] := by
  rw [chunk, List.drop_eq_nil_of_le h, List.take_nil]

/-- A chunk, and what comes behind it. -/
theorem chunk_append_drop (xs : List α) (pos n : Nat) :
    chunk xs pos n ++ xs.drop (pos + (chunk xs pos n).length) = xs.drop pos := by
  rw [← List.drop_drop]
  exact List.prefix_iff_eq_append.mp (List.take_prefix n (xs.drop pos))

/-- A read that asks for something gives nothing only at the end. -/
theorem chunk_eq_nil_iff {xs : List α} {pos n : Nat} (hn : 0 < n) :
    chunk xs pos n = [] ↔ xs.length ≤ pos := by
  rw [← List.length_eq_zero_iff, length_chunk]
  omega

/-- **The chunks up to an empty one are all there is**, if every read asks for something. -/
theorem flatten_chunks_of_last {xs : List α} {pos : Nat} {ns : List Nat} (hpos : ∀ n ∈ ns, 0 < n)
    (hlast : (chunks xs pos ns).getLast? = some []) : (chunks xs pos ns).flatten = xs.drop pos := by
  induction ns generalizing pos with
  | nil => cases hlast
  | cons n ns ih =>
    obtain ⟨hn, hns⟩ := List.forall_mem_cons.mp hpos
    rw [chunks, List.flatten_cons]
    cases ns with
    | nil =>
      have hnil : chunk xs pos n = [] := by simpa [chunks] using hlast
      rw [hnil, chunks, List.drop_eq_nil_of_le ((chunk_eq_nil_iff hn).mp hnil)]
      rfl
    | cons n' ns =>
      rw [chunks, chunks, List.getLast?_cons_cons] at hlast
      rw [ih hns hlast, chunk_append_drop]

end CLib
