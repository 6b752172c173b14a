import Dca.Db.Dump

/-!
# Decimal texts

How long the text of a number is, and what a dump prints for a number. A number of 32 bits has at
most eleven characters, so it fits wherever it is put.
-/

namespace Dca

open CLib

/-- The values of an `int32_t`. -/
def IsInt32 (v : Int) : Prop := -2 ^ 31 ≤ v ∧ v < 2 ^ 31

instance (v : Int) : Decidable (IsInt32 v) := inferInstanceAs (Decidable (_ ∧ _))

theorem nul_not_mem_toDigits (n : Nat) : nul ∉ Nat.toDigits 10 n := by
  intro h
  have hdigit := Nat.isDigit_of_mem_toDigits (by decide) (by decide) h
  exact absurd hdigit (by decide)

theorem fmtS32Dec_chars (v : Int) : (fmtS32Dec v).chars = v.repr.toList := by
  have hno : nul ∉ v.repr.toList := by
    cases v with
    | ofNat n => simpa [Int.repr] using nul_not_mem_toDigits n
    | negSucc n =>
      have h := nul_not_mem_toDigits (n + 1)
      simp only [Int.repr, Nat.succ_eq_add_one, String.toList_append, Nat.toList_repr,
        List.mem_append]
      rintro (hminus | hdigits)
      · exact absurd hminus (by decide)
      · exact h hdigits
  refine List.takeWhile_eq_self_iff.mpr fun c hc => ?_
  have hne : c ≠ nul := fun heq => hno (heq ▸ hc)
  simpa using hne

theorem length_fmtS32Dec_ofNat (n : Nat) : (fmtS32Dec n).length = (Nat.toDigits 10 n).length := by
  rw [CString.length, fmtS32Dec_chars]
  simp [Int.repr]

theorem length_fmtS32Dec_negSucc (n : Nat) :
    (fmtS32Dec (.negSucc n)).length = (Nat.toDigits 10 (n + 1)).length + 1 := by
  rw [CString.length, fmtS32Dec_chars]
  simp [Int.repr, String.toList_append, Nat.add_comm]

/-- **The texts of at most `k + 1` characters**: a sign counts as one of them. -/
theorem length_fmtS32Dec_le_iff {k : Nat} (hk : 0 < k) (v : Int) :
    (fmtS32Dec v).length ≤ k + 1 ↔ -10 ^ k < v ∧ v < 10 ^ (k + 1) := by
  have hpow : ((10 ^ k : Nat) : Int) = 10 ^ k := by simp
  have hpow' : ((10 ^ (k + 1) : Nat) : Int) = 10 ^ (k + 1) := by simp
  have hpos : 0 < 10 ^ k := Nat.pow_pos (by decide)
  cases v with
  | ofNat n =>
    have hlen : (fmtS32Dec (Int.ofNat n)).length = _ := length_fmtS32Dec_ofNat n
    rw [hlen, Nat.length_toDigits_le_iff (by decide) (Nat.succ_pos k), ← hpow, ← hpow']
    show n < 10 ^ (k + 1) ↔ -((10 ^ k : Nat) : Int) < n ∧ (n : Int) < ((10 ^ (k + 1) : Nat) : Int)
    generalize 10 ^ k = a at *
    generalize 10 ^ (k + 1) = b at *
    omega
  | negSucc n =>
    rw [length_fmtS32Dec_negSucc, Nat.add_le_add_iff_right,
      Nat.length_toDigits_le_iff (by decide) hk, ← hpow, ← hpow', Int.negSucc_eq]
    have hpos' : 0 < 10 ^ (k + 1) := Nat.pow_pos (by decide)
    generalize 10 ^ k = a at *
    generalize 10 ^ (k + 1) = b at *
    omega

theorem length_of_isInt32 {v : Int} (h : IsInt32 v) : (fmtS32Dec v).length ≤ 11 := by
  rw [length_fmtS32Dec_le_iff (k := 10) (by decide)]
  obtain ⟨hlo, hhi⟩ := h
  omega

/-- What a dump prints for a number. -/
def intText (v : Int) : CString := numberText dcaShellStrbufSize (fmtS32Dec v)

/-- A leaf of type `int` shows its value, and leaves what reading the value leaves. -/
theorem printContent_int {db : Db} {stack : Stack} {g g' : Globals} {node : DbNode} {v : Int}
    (htype : dbNodeGetType db g node = .ok .int)
    (hv : dbNodeGetIntValue db g node = .ok (g', v)) :
    printNodeContent db stack g node = .ok (g', intText v) := by
  obtain ⟨b, hval, hs⟩ := valueToStr_of_int (by decide) htype hv stack.str
  exact printContent_eq hval hs

end Dca
