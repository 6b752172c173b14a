import Mathlib.Algebra.Order.Floor.Ring
import Mathlib.Algebra.Order.Round
import Mathlib.Data.Int.Log
import Mathlib.Data.Nat.Cast.Order.Field
import Mathlib.Tactic.FieldSimp
import Mathlib.Tactic.GCongr
import Mathlib.Tactic.Linarith
import Mathlib.Tactic.Positivity
import Mathlib.Tactic.Ring

/-!
# Rounding to a number of binary digits

The numbers with `p` binary digits, and functions that give the nearest one of them wherever a format
neither overflows nor loses digits. Which one of two nearest numbers is taken is left open.
-/

namespace CLib

variable {K : Type} [Field K] [LinearOrder K] [IsStrictOrderedRing K]

/-! ## Numbers with `p` digits -/

/-- `m * 2 ^ e` with at most `p` binary digits in `m`. -/
def IsFloat (p : Nat) (x : K) : Prop := ∃ m e : Int, |m| < 2 ^ p ∧ x = m * 2 ^ e

section IsFloat

variable {p : Nat}

theorem isFloat_intCast_mul {m : Int} (hm : |m| ≤ 2 ^ p) (hp : 0 < p) (e : Int) :
    IsFloat p (m * 2 ^ e : K) := by
  rcases hm.lt_or_eq with hlt | heq
  · exact ⟨m, e, hlt, rfl⟩
  · -- one more digit, and it is a zero
    obtain ⟨k, rfl⟩ : ∃ k, p = k + 1 := ⟨p - 1, by omega⟩
    rcases abs_eq (by positivity) |>.mp heq with rfl | rfl
    · refine ⟨2 ^ k, e + 1, by simp [abs_of_pos, pow_succ], ?_⟩
      push_cast
      rw [zpow_add_one₀ two_ne_zero, pow_succ]
      ring
    · refine ⟨-2 ^ k, e + 1, by simp [abs_of_pos, pow_succ], ?_⟩
      push_cast
      rw [zpow_add_one₀ two_ne_zero, pow_succ]
      ring

theorem isFloat_intCast {m : Int} (hm : |m| ≤ 2 ^ p) (hp : 0 < p) : IsFloat p (m : K) := by
  have h := isFloat_intCast_mul (K := K) hm hp 0
  rwa [zpow_zero, mul_one] at h

theorem isFloat_natCast {m : Nat} (hm : m ≤ 2 ^ p) (hp : 0 < p) : IsFloat p (m : K) := by
  have habs : |(m : Int)| ≤ 2 ^ p := by
    rw [Nat.abs_cast]
    exact_mod_cast hm
  simpa using isFloat_intCast (K := K) habs hp

/-- A number that needs all its digits in front of the point is an integer. -/
theorem IsFloat.exists_int {x : K} (h : IsFloat p x) (hx : 2 ^ p ≤ |x|) : ∃ n : Int, x = n := by
  obtain ⟨m, e, hm, rfl⟩ := h
  rcases lt_or_ge e 0 with he | he
  · have hlt : |(m : K) * 2 ^ e| < 2 ^ p := by
      have hm' : |(m : K)| < 2 ^ p := by exact_mod_cast hm
      have hone : (2 : K) ^ e ≤ 1 := zpow_le_one_of_nonpos₀ (by norm_num) he.le
      have hpos : (0 : K) < 2 ^ e := zpow_pos two_pos e
      rw [abs_mul, abs_of_pos hpos]
      calc |(m : K)| * 2 ^ e ≤ |(m : K)| * 1 := by gcongr
        _ < 2 ^ p := by rwa [mul_one]
    exact absurd hx (not_le.mpr hlt)
  · obtain ⟨k, rfl⟩ := Int.eq_ofNat_of_zero_le he
    exact ⟨m * 2 ^ k, by push_cast; rw [zpow_natCast]⟩

theorem IsFloat.mul_two_pow {x : K} (h : IsFloat p x) (j : Nat) : IsFloat p (x * 2 ^ j) := by
  obtain ⟨m, e, hm, rfl⟩ := h
  exact ⟨m, e + j, hm, by rw [zpow_add₀ two_ne_zero, zpow_natCast, mul_assoc]⟩

/-- A number below 1 keeps a distance from it. -/
theorem IsFloat.le_one_sub {x : K} (h : IsFloat p x) (hx : x < 1) : x ≤ 1 - 1 / 2 ^ (p + 1) := by
  have hpow : (0 : K) < 2 ^ p := by positivity
  have hpow' : (0 : K) < 2 ^ (p + 1) := by positivity
  rw [le_sub_iff_add_le, ← le_sub_iff_add_le', div_le_iff₀ hpow']
  rcases lt_or_ge x (1 / 2) with hlt | hge
  · have hone : (1 : K) ≤ 2 ^ p := one_le_pow₀ one_le_two
    calc (1 : K) ≤ 1 / 2 * (2 * 2 ^ p) := by linarith
      _ ≤ (1 - x) * (2 * 2 ^ p) := mul_le_mul_of_nonneg_right (by linarith) (by positivity)
      _ = (1 - x) * 2 ^ (p + 1) := by rw [pow_succ']
  · -- all its digits are in front of the point if it is multiplied by `2 ^ (p + 1)`
    have hbig : (2 : K) ^ p ≤ |x * 2 ^ (p + 1)| := by
      rw [abs_of_nonneg (mul_nonneg (by linarith) hpow'.le), pow_succ']
      calc (2 : K) ^ p = 1 / 2 * (2 * 2 ^ p) := by ring
        _ ≤ x * (2 * 2 ^ p) := mul_le_mul_of_nonneg_right hge (by positivity)
    obtain ⟨n, hn⟩ := (h.mul_two_pow (p + 1)).exists_int hbig
    have hlt : (n : K) < (2 ^ (p + 1) : Int) := by
      rw [← hn]
      push_cast
      exact mul_lt_of_lt_one_left hpow' hx
    have hint : n + 1 ≤ 2 ^ (p + 1) := Int.add_one_le_of_lt (Int.cast_lt.mp hlt)
    have hcast : (n : K) + 1 ≤ 2 ^ (p + 1) := by exact_mod_cast hint
    rw [sub_mul, one_mul, hn]
    linarith

/-- A smaller exponent halves the number at least. -/
theorem abs_mul_zpow_le {m e j : Int} {k : Nat} (hm : |m| < 2 ^ (k + 1)) (he : e < j) :
    |(m : K) * 2 ^ e| ≤ 2 ^ k * 2 ^ j := by
  have hpos : (0 : K) < 2 ^ e := zpow_pos two_pos e
  have hm' : |(m : K)| ≤ 2 ^ (k + 1) := by exact_mod_cast hm.le
  have he' : (2 : K) ^ e ≤ 2 ^ (j - 1) := zpow_le_zpow_right₀ one_le_two (by omega)
  rw [abs_mul, abs_of_pos hpos]
  calc |(m : K)| * 2 ^ e ≤ 2 ^ (k + 1) * 2 ^ (j - 1) :=
        mul_le_mul hm' he' hpos.le (by positivity)
    _ = 2 ^ k * 2 ^ j := by
        rw [zpow_sub_one₀ two_ne_zero, pow_succ]
        field_simp

end IsFloat

/-! ## The nearest number -/

section Nearest

variable [FloorRing K] (p : Nat)

/-- The exponent of the last one of `p` digits. -/
def lastDigit (x : K) : Int := Int.log 2 |x| + 1 - p

/-- The nearest number with `p` digits. Between two of them it is the larger one. -/
def nearestFloat (x : K) : K := round (x / 2 ^ lastDigit p x) * 2 ^ lastDigit p x

variable {p} {x y : K}

theorem nearestFloat_zero : nearestFloat p (0 : K) = 0 := by simp [nearestFloat]

theorem abs_lt_lastDigit (x : K) : |x| < 2 ^ p * 2 ^ lastDigit p x := by
  have h := Int.lt_zpow_succ_log_self one_lt_two |x|
  rw [← zpow_natCast, ← zpow_add₀ two_ne_zero, lastDigit]
  have he : (p : Int) + (Int.log 2 |x| + 1 - p) = Int.log 2 |x| + 1 := by ring
  rw [he]
  exact_mod_cast h

theorem lastDigit_le_abs (hx : x ≠ 0) : 2 ^ p * 2 ^ lastDigit p x ≤ 2 * |x| := by
  have h := Int.zpow_log_le_self one_lt_two (abs_pos.mpr hx)
  have he : (p : Int) + (Int.log 2 |x| + 1 - p) = Int.log 2 |x| + 1 := by ring
  rw [← zpow_natCast, ← zpow_add₀ two_ne_zero, lastDigit, he, zpow_add_one₀ two_ne_zero,
    mul_comm]
  have h' : (2 : K) ^ Int.log 2 |x| ≤ |x| := by exact_mod_cast h
  linarith

theorem abs_nearestFloat_sub (x : K) :
    |nearestFloat p x - x|
      = |x / 2 ^ lastDigit p x - round (x / 2 ^ lastDigit p x)| * 2 ^ lastDigit p x := by
  have hpos : (0 : K) < 2 ^ lastDigit p x := zpow_pos two_pos _
  have hx : x = x / 2 ^ lastDigit p x * 2 ^ lastDigit p x := (div_mul_cancel₀ x hpos.ne').symm
  rw [abs_sub_comm, nearestFloat]
  nth_rewrite 1 [hx]
  rw [← sub_mul, abs_mul, abs_of_pos hpos]

theorem isFloat_nearestFloat (hp : 0 < p) (x : K) : IsFloat p (nearestFloat p x) := by
  refine isFloat_intCast_mul ?_ hp _
  have hpos : (0 : K) < 2 ^ lastDigit p x := zpow_pos two_pos _
  have hlt : |x / 2 ^ lastDigit p x| < 2 ^ p := by
    rw [abs_div, abs_of_pos hpos, div_lt_iff₀ hpos]
    exact abs_lt_lastDigit x
  have hround := abs_sub_round (x / 2 ^ lastDigit p x)
  have habs : |(round (x / 2 ^ lastDigit p x) : K)| < 2 ^ p + 1 := by
    have htri := abs_sub_abs_le_abs_sub (round (x / 2 ^ lastDigit p x) : K) (x / 2 ^ lastDigit p x)
    rw [abs_sub_comm] at htri
    linarith
  exact Int.lt_add_one_iff.mp (by exact_mod_cast habs)

/-- The distance is at most half of the last digit. -/
theorem abs_nearestFloat_sub_le (x : K) : |nearestFloat p x - x| ≤ |x| / 2 ^ p := by
  rcases eq_or_ne x 0 with rfl | hx
  · simp [nearestFloat_zero]
  · have hpos : (0 : K) < 2 ^ lastDigit p x := zpow_pos two_pos _
    have hround := abs_sub_round (x / 2 ^ lastDigit p x)
    have hdigit := lastDigit_le_abs (p := p) hx
    rw [abs_nearestFloat_sub, le_div_iff₀ (by positivity)]
    calc |x / 2 ^ lastDigit p x - round (x / 2 ^ lastDigit p x)| * 2 ^ lastDigit p x * 2 ^ p
        ≤ 1 / 2 * 2 ^ lastDigit p x * 2 ^ p := by gcongr
      _ = 1 / 2 * (2 ^ p * 2 ^ lastDigit p x) := by ring
      _ ≤ 1 / 2 * (2 * |x|) := by gcongr
      _ = |x| := by ring

/-- No multiple of the last digit is nearer. -/
theorem abs_nearestFloat_sub_le_mul (x : K) (n : Int) :
    |nearestFloat p x - x| ≤ |(n : K) * 2 ^ lastDigit p x - x| := by
  have hpos : (0 : K) < 2 ^ lastDigit p x := zpow_pos two_pos _
  have hround := round_le (x / 2 ^ lastDigit p x) n
  have hx : |(n : K) * 2 ^ lastDigit p x - x|
      = |x / 2 ^ lastDigit p x - n| * 2 ^ lastDigit p x := by
    rw [abs_sub_comm, ← abs_of_pos hpos, ← abs_mul, abs_of_pos hpos, sub_mul,
      div_mul_cancel₀ x hpos.ne']
  rw [abs_nearestFloat_sub, hx]
  exact mul_le_mul_of_nonneg_right hround hpos.le

/-- **No number with `p` digits is nearer.** -/
theorem abs_nearestFloat_sub_le_of_isFloat (hp : 0 < p) (hy : IsFloat p y) :
    |nearestFloat p x - x| ≤ |y - x| := by
  have hmul := abs_nearestFloat_sub_le_mul (p := p) x
  obtain ⟨m, e, hm, rfl⟩ := hy
  rcases le_or_gt (lastDigit p x) e with he | he
  · obtain ⟨k, hk⟩ := Int.eq_ofNat_of_zero_le (Int.sub_nonneg.mpr he)
    obtain rfl : e = lastDigit p x + k := by omega
    have h := hmul (m * 2 ^ k)
    rw [zpow_add₀ two_ne_zero, zpow_natCast]
    push_cast at h
    rwa [mul_assoc, mul_comm (2 ^ k : K)] at h
  · -- a number with digits behind the last one is smaller than the least number with `p` digits
    -- and this last one, and `x` is not
    rcases eq_or_ne x 0 with rfl | hx
    · rw [nearestFloat_zero, sub_self, abs_zero]
      exact abs_nonneg _
    · obtain ⟨k, rfl⟩ : ∃ k, p = k + 1 := ⟨p - 1, by omega⟩
      have hbelow : |(m : K) * 2 ^ e| ≤ 2 ^ k * 2 ^ lastDigit (k + 1) x := abs_mul_zpow_le hm he
      have hle : (2 : K) ^ k * 2 ^ lastDigit (k + 1) x ≤ |x| := by
        have h := lastDigit_le_abs (p := k + 1) hx
        rw [pow_succ] at h
        linarith
      have hnear : |x| - 2 ^ k * 2 ^ lastDigit (k + 1) x ≤ |(m : K) * 2 ^ e - x| := by
        have h := abs_sub_abs_le_abs_sub x ((m : K) * 2 ^ e)
        rw [abs_sub_comm] at h
        linarith
      rcases lt_or_gt_of_ne hx with hneg | hpos
      · refine (hmul (-2 ^ k)).trans (le_trans (le_of_eq ?_) hnear)
        rw [abs_of_neg hneg] at hle ⊢
        push_cast
        rw [abs_of_nonneg (by linarith)]
        ring
      · refine (hmul (2 ^ k)).trans (le_trans (le_of_eq ?_) hnear)
        rw [abs_of_pos hpos] at hle ⊢
        push_cast
        rw [abs_of_nonpos (by linarith)]
        ring

end Nearest

/-- What relative errors do to a quotient. -/
theorem abs_div_sub_div_le {a b t s d : K} (ht : 0 ≤ t) (hs : 0 < s) (hd : 1 / d ≤ 1 / 3)
    (ha : |a - t| ≤ t / d) (hb : |b - s| ≤ s / d) : |a / b - t / s| ≤ 3 / d * (t / s) := by
  obtain ⟨r, hr⟩ : ∃ r, t / s = r := ⟨_, rfl⟩
  obtain rfl : t = r * s := by rw [← hr, div_mul_cancel₀ _ hs.ne']
  have hr0 : 0 ≤ r := nonneg_of_mul_nonneg_left ht hs
  have hd0 : 0 ≤ 1 / d := by
    refine nonneg_of_mul_nonneg_right ?_ hs
    rw [mul_one_div]
    exact (abs_nonneg _).trans hb
  have hb' : 2 * s ≤ 3 * b := by
    have hsd : s / d ≤ s * (1 / 3) := by
      rw [← mul_one_div]
      exact mul_le_mul_of_nonneg_left hd hs.le
    have hlow := (abs_le.mp hb).1
    linarith
  have hbpos : 0 < b := by linarith
  have hrb : |r * (b - s)| ≤ r * s / d := by
    rw [abs_mul, abs_of_nonneg hr0, mul_div_assoc]
    exact mul_le_mul_of_nonneg_left hb hr0
  have hsplit : a / b - r = ((a - r * s) - r * (b - s)) / b := by
    field_simp
    ring
  rw [hr, hsplit, abs_div, abs_of_pos hbpos, div_le_iff₀ hbpos]
  calc |a - r * s - r * (b - s)| ≤ |a - r * s| + |r * (b - s)| := abs_sub _ _
    _ ≤ r * s / d + r * s / d := add_le_add ha hrb
    _ = r * (1 / d) * (2 * s) := by ring
    _ ≤ r * (1 / d) * (3 * b) := mul_le_mul_of_nonneg_left hb' (mul_nonneg hr0 hd0)
    _ = 3 / d * r * b := by ring

/-! ## Functions that round -/

/-- What a format rounds without overflow and without losing digits: 0, and all between `lo` and
`hi`. -/
def InRange (lo hi x : K) : Prop := x = 0 ∨ lo ≤ |x| ∧ |x| ≤ hi

/-- In its range a function gives a nearest number with `p` digits. -/
structure RoundsNearest (p : Nat) (lo hi : K) (rnd : K → K) : Prop where
  isFloat : ∀ x, InRange lo hi x → IsFloat p (rnd x)
  nearest : ∀ x y, InRange lo hi x → IsFloat p y → |rnd x - x| ≤ |y - x|

theorem roundsNearest_nearestFloat [FloorRing K] {p : Nat} (hp : 0 < p) (lo hi : K) :
    RoundsNearest p lo hi (nearestFloat p) where
  isFloat x _ := isFloat_nearestFloat hp x
  nearest _ _ _ hy := abs_nearestFloat_sub_le_of_isFloat hp hy

namespace RoundsNearest

variable {p : Nat} {lo hi : K} {rnd : K → K} {x y : K}

theorem eq_self (h : RoundsNearest p lo hi rnd) (hx : InRange lo hi x) (hf : IsFloat p x) :
    rnd x = x := by
  have hdist := h.nearest x x hx hf
  rw [sub_self, abs_zero] at hdist
  exact sub_eq_zero.mp (abs_eq_zero.mp (le_antisymm hdist (abs_nonneg _)))

/-- A number is not rounded beyond one with `p` digits. -/
theorem le_of_le (h : RoundsNearest p lo hi rnd) (hx : InRange lo hi x) (hy : IsFloat p y)
    (hxy : x ≤ y) : rnd x ≤ y := by
  by_contra hlt
  have hlt : y < rnd x := not_le.mp hlt
  have hdist := h.nearest x y hx hy
  rw [abs_of_pos (by linarith), abs_of_nonneg (by linarith)] at hdist
  linarith

theorem ge_of_ge (h : RoundsNearest p lo hi rnd) (hx : InRange lo hi x) (hy : IsFloat p y)
    (hyx : y ≤ x) : y ≤ rnd x := by
  by_contra hlt
  have hlt : rnd x < y := not_le.mp hlt
  have hdist := h.nearest x y hx hy
  rw [abs_of_neg (by linarith), abs_of_nonpos (by linarith)] at hdist
  linarith

theorem mono (h : RoundsNearest p lo hi rnd) (hx : InRange lo hi x) (hy : InRange lo hi y)
    (hxy : x ≤ y) : rnd x ≤ rnd y := by
  rcases hxy.eq_or_lt with rfl | hxy
  · rfl
  · by_contra hlt
    have hpos : 0 < rnd x - rnd y := sub_pos.mpr (not_le.mp hlt)
    -- `x` lies above the middle of the two results, and `y` below it
    have hdist := sq_le_sq.mpr (h.nearest x _ hx (h.isFloat y hy))
    have hdist' := sq_le_sq.mpr (h.nearest y _ hy (h.isFloat x hx))
    have hprod : (rnd x - rnd y) * (rnd x + rnd y - 2 * x) ≤ 0 := by linarith
    have hprod' : 0 ≤ (rnd x - rnd y) * (rnd x + rnd y - 2 * y) := by linarith
    have habove := nonpos_of_mul_nonpos_right hprod hpos
    have hbelow := nonneg_of_mul_nonneg_right hprod' hpos
    linarith

/-- The relative error. -/
theorem abs_sub_le [FloorRing K] (h : RoundsNearest p lo hi rnd) (hp : 0 < p)
    (hx : InRange lo hi x) : |rnd x - x| ≤ |x| / 2 ^ p :=
  (h.nearest x _ hx (isFloat_nearestFloat hp x)).trans (abs_nearestFloat_sub_le x)

/--
**A quotient of integers keeps its integer part when it is rounded**, as long as the numbers with `p`
digits are close enough for the divisor there: below `2 ^ k` their distance is at most
`2 ^ k / 2 ^ p`.
-/
theorem floor_div [FloorRing K] (h : RoundsNearest p lo hi rnd) (hp : 0 < p) {n d k : Nat}
    (hd : 0 < d) (hk : n / d < 2 ^ k) (hclose : d * 2 ^ k < 2 ^ (p + 1)) (hx : InRange lo hi (n / d : K)) :
    ⌊rnd (n / d : K)⌋ = (n / d : Nat) := by
  obtain ⟨j, rfl⟩ : ∃ j, p = k + j := by
    have hlt : 2 ^ k < 2 ^ (p + 1) := lt_of_le_of_lt (Nat.le_mul_of_pos_left _ hd) hclose
    have hkp : k < p + 1 := (Nat.pow_lt_pow_iff_right one_lt_two).mp hlt
    exact ⟨p - k, by omega⟩
  have hd' : (0 : K) < d := by exact_mod_cast hd
  have hj : (0 : K) < 2 ^ j := by positivity
  have htop : (n / d : K) + 1 / d ≤ (n / d : Nat) + 1 := by
    have hlt : n + 1 ≤ d * (n / d + 1) := Nat.lt_mul_div_succ n hd
    have hlt' : (n : K) + 1 ≤ d * ((n / d : Nat) + 1) := by exact_mod_cast hlt
    rw [← add_div, div_le_iff₀ hd', mul_comm]
    exact hlt'
  have hle : ((n / d : Nat) : K) ≤ n / d := Nat.cast_div_le
  rw [Int.floor_eq_iff, Int.cast_natCast]
  generalize n / d = t at hk htop hle ⊢
  have ht : t ≤ 2 ^ (k + j) := hk.le.trans (Nat.pow_le_pow_right two_pos (Nat.le_add_right k j))
  refine ⟨h.ge_of_ge hx (isFloat_natCast ht hp) hle, ?_⟩
  by_contra hge
  have hge : (t : K) + 1 ≤ rnd (n / d) := not_lt.mp hge
  -- the number next below the integer is nearer
  have hfloat : IsFloat (k + j) ((t : K) + 1 - 1 / 2 ^ j) := by
    refine ⟨(t + 1) * 2 ^ j - 1, -j, ?_, ?_⟩
    · have hone : (1 : Int) ≤ (t + 1) * 2 ^ j := by exact_mod_cast Nat.succ_le_of_lt (by positivity)
      have hmul : ((t : Int) + 1) * 2 ^ j ≤ 2 ^ k * 2 ^ j := by
        exact_mod_cast Nat.mul_le_mul_right (2 ^ j) (Nat.succ_le_of_lt hk)
      rw [abs_of_nonneg (by linarith), pow_add]
      linarith
    · rw [zpow_neg, zpow_natCast]
      push_cast
      field_simp
  have hsmall : (1 : K) / 2 ^ j < 2 / d := by
    have hclose' : (d : K) * 2 ^ k < 2 * 2 ^ j * 2 ^ k := by
      have hpow : d * 2 ^ k < 2 * 2 ^ j * 2 ^ k := by
        rw [pow_succ, pow_add] at hclose
        linarith
      exact_mod_cast hpow
    have hdj : (d : K) < 2 * 2 ^ j := lt_of_mul_lt_mul_right hclose' (by positivity)
    rwa [div_lt_div_iff₀ hj hd', one_mul]
  have hdist := h.nearest _ _ hx hfloat
  have hinv : (0 : K) < 1 / d := by positivity
  have hjinv : (0 : K) < 1 / 2 ^ j := by positivity
  have htwo : (2 : K) / d = 1 / d + 1 / d := by ring
  rw [abs_of_nonneg (by linarith)] at hdist
  rcases abs_cases ((t : K) + 1 - 1 / 2 ^ j - n / d) with ⟨habs, -⟩ | ⟨habs, -⟩
  · linarith
  · linarith

end RoundsNearest

end CLib
