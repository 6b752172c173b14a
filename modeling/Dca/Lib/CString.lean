import Mathlib.Data.List.TakeWhile

/-!
# C strings and character arrays

A C string is a list of characters without NUL; a character array is a list of fixed length.
Both carry that fact in a field, so that the `<string.h>` functions below need no side
conditions on their arguments.

A function that would leave its array returns `none`. `memcmp` is read as comparing byte by
byte and stopping at the first difference, and `none` means that no difference was found before
the end of the array.
-/

namespace CLib

/-- The terminator. -/
abbrev nul : Char := '\x00'

/-- A NUL-terminated string, without its terminator. -/
structure CString where
  chars : List Char
  noNul : nul ∉ chars
  deriving DecidableEq

namespace CString

def length (s : CString) : Nat := s.chars.length

/-- What C sees of a character sequence: the part before its first NUL. -/
def ofChars (l : List Char) : CString :=
  ⟨l.takeWhile (· != nul), fun h => by simpa using List.mem_takeWhile_imp h⟩

/-- A string literal. -/
def lit (s : String) : CString := ofChars s.toList

end CString

/-- A `char[n]`. -/
structure Buf (n : Nat) where
  chars : List Char
  size : chars.length = n
  deriving DecidableEq

namespace Buf

variable {n : Nat}

/-- `memset(b, 0, n)`. -/
def zero (n : Nat) : Buf n := ⟨List.replicate n nul, List.length_replicate⟩

/-- Store `bytes` at the start of the array and leave the rest. -/
def store (b : Buf n) (bytes : List Char) : Option (Buf n) :=
  if h : bytes.length ≤ n then
    some ⟨bytes ++ b.chars.drop bytes.length, by simp [b.size]; omega⟩
  else none

/-- The `k` bytes that `strncpy(_, s, k)` writes: `s` cut off or padded with NULs. -/
def strncpyBytes (s : CString) (k : Nat) : List Char :=
  s.chars.take k ++ List.replicate (k - s.length) nul

@[simp] theorem length_strncpyBytes (s : CString) (k : Nat) : (strncpyBytes s k).length = k := by
  simp only [strncpyBytes, CString.length, List.length_append, List.length_take,
    List.length_replicate]
  omega

/-- `strncpy(b, s, n)` into an array of exactly `n` bytes. -/
def strncpy (_b : Buf n) (s : CString) : Buf n := ⟨strncpyBytes s n, length_strncpyBytes s n⟩

/-- `strncpy(b, s, k)`. -/
def strncpyN (b : Buf n) (s : CString) (k : Nat) : Option (Buf n) := b.store (strncpyBytes s k)

/-- `strcpy(b, s)`. -/
def strcpy (b : Buf n) (s : CString) : Option (Buf n) := b.store (s.chars ++ [nul])

/-- The string an array holds: all of it when there is no NUL in it. -/
def str (b : Buf n) : CString := CString.ofChars b.chars

/-- `strlen(b)`. -/
def strlen (b : Buf n) : Option Nat := if nul ∈ b.chars then some b.str.length else none

/-- `b[i] = c`. -/
def set (b : Buf n) (i : Nat) (c : Char) : Option (Buf n) :=
  if i < n then some ⟨b.chars.set i c, by simp [b.size]⟩ else none

/-- `memcpy(_, b + i, k)`. -/
def memcpyFrom (b : Buf n) (i k : Nat) : Option (List Char) :=
  if i + k ≤ n then some ((b.chars.drop i).take k) else none

/-- `memcmp(tok, b, |tok|) == 0`. -/
def memcmp : List Char → List Char → Option Bool
  | [], _ => some true
  | _ :: _, [] => none
  | c :: cs, b :: bs => if c = b then memcmp cs bs else some false

theorem memcmp_eq_true {tok bytes : List Char} : memcmp tok bytes = some true ↔ tok <+: bytes := by
  induction tok generalizing bytes with
  | nil => simp [memcmp]
  | cons c cs ih =>
    cases bytes with
    | nil => simp [memcmp]
    | cons b bs =>
      by_cases h : c = b
      · rw [memcmp, if_pos h, ih, h, List.prefix_cons_inj]
      · simp [memcmp, h, List.cons_prefix_cons]

/-- `memcmp` runs off the array when `tok` is longer and agrees with all of it. -/
theorem memcmp_eq_none {tok bytes : List Char} :
    memcmp tok bytes = none ↔ bytes <+: tok ∧ bytes.length < tok.length := by
  induction tok generalizing bytes with
  | nil => simp [memcmp]
  | cons c cs ih =>
    cases bytes with
    | nil => simp [memcmp]
    | cons b bs =>
      by_cases h : c = b
      · rw [memcmp, if_pos h, ih, h, List.prefix_cons_inj]
        simp
      · simp [memcmp, h, List.cons_prefix_cons, Ne.symm h]

/-- They differ before either of them ends. -/
theorem memcmp_eq_false {tok bytes : List Char} :
    memcmp tok bytes = some false ↔ ¬ tok <+: bytes ∧ ¬ bytes <+: tok := by
  induction tok generalizing bytes with
  | nil => simp [memcmp]
  | cons c cs ih =>
    cases bytes with
    | nil => simp [memcmp]
    | cons b bs =>
      by_cases h : c = b
      · rw [memcmp, if_pos h, ih, h, List.prefix_cons_inj, List.prefix_cons_inj]
      · simp [memcmp, h, List.cons_prefix_cons, Ne.symm h]

/-! ## Comparing with a name that `strncpy` put into the array -/

/-- Comparing `tok` with `name` in an array of `n` bytes leaves the array. -/
def Overruns (n : Nat) (name tok : List Char) : Prop :=
  name.length = n ∧ name <+: tok ∧ n < tok.length

instance (n : Nat) (name tok : List Char) : Decidable (Overruns n name tok) := by
  unfold Overruns
  infer_instance

theorem strncpyBytes_eq {s : CString} {k : Nat} (h : s.length ≤ k) :
    strncpyBytes s k = s.chars ++ List.replicate (k - s.length) nul := by
  unfold strncpyBytes
  rw [List.take_of_length_le h]

/-- A string without NULs that begins a padded name begins the name. -/
theorem prefix_append_replicate_nul {tok name : List Char} {k : Nat} (htok : nul ∉ tok) :
    tok <+: name ++ List.replicate k nul ↔ tok <+: name := by
  constructor
  · intro hp
    induction tok generalizing name with
    | nil => exact List.nil_prefix
    | cons c tok ih =>
      obtain ⟨hc, htok⟩ : nul ≠ c ∧ nul ∉ tok := by simpa using htok
      cases name with
      | nil =>
        cases k with
        | zero => simp at hp
        | succ k =>
          rw [List.nil_append, List.replicate_succ, List.cons_prefix_cons] at hp
          exact absurd hp.1.symm hc
      | cons d name =>
        rw [List.cons_append, List.cons_prefix_cons] at hp
        exact List.cons_prefix_cons.mpr ⟨hp.1, ih htok hp.2⟩
  · intro hp
    exact hp.trans (List.prefix_append _ _)

theorem prefix_strncpyBytes {s : CString} {k : Nat} {tok : List Char} (h : s.length ≤ k)
    (htok : nul ∉ tok) : tok <+: strncpyBytes s k ↔ tok <+: s.chars := by
  rw [strncpyBytes_eq h, prefix_append_replicate_nul htok]

/-- The padded name begins a string without NULs only when there is no padding. -/
theorem memcmp_strncpyBytes_eq_none {s : CString} {k : Nat} {tok : List Char} (h : s.length ≤ k)
    (htok : nul ∉ tok) : memcmp tok (strncpyBytes s k) = none ↔ Overruns k s.chars tok := by
  rw [memcmp_eq_none, length_strncpyBytes]
  constructor
  · rintro ⟨hp, hlen⟩
    have hfull : ¬ s.length < k := by
      intro hlt
      apply htok
      refine hp.subset ?_
      rw [strncpyBytes_eq h]
      exact List.mem_append_right _ (by rw [List.mem_replicate]; exact ⟨by omega, rfl⟩)
    have hk : s.chars.length = k := Nat.le_antisymm h (Nat.not_lt.mp hfull)
    refine ⟨hk, ?_, hlen⟩
    rw [strncpyBytes_eq h] at hp
    exact (List.prefix_append _ _).trans hp
  · rintro ⟨hk, hp, hlen⟩
    have hpad : k - s.length = 0 := by
      show k - s.chars.length = 0
      omega
    refine ⟨?_, hlen⟩
    rw [strncpyBytes_eq h, hpad, List.replicate_zero, List.append_nil]
    exact hp

/-- What `memcmp` finds out about a padded name, in terms of the name. -/
theorem memcmp_strncpyBytes {s : CString} {k : Nat} {tok : List Char} (h : s.length ≤ k)
    (htok : nul ∉ tok) :
    memcmp tok (strncpyBytes s k)
      = if tok <+: s.chars then some true
        else if Overruns k s.chars tok then none else some false := by
  split_ifs with hp ho
  · exact memcmp_eq_true.mpr ((prefix_strncpyBytes h htok).mpr hp)
  · exact (memcmp_strncpyBytes_eq_none h htok).mpr ho
  · cases hm : memcmp tok (strncpyBytes s k) with
    | none => exact absurd ((memcmp_strncpyBytes_eq_none h htok).mp hm) ho
    | some eq =>
      cases eq with
      | false => rfl
      | true => exact absurd ((prefix_strncpyBytes h htok).mp (memcmp_eq_true.mp hm)) hp

/-! ## Arrays that hold a string -/

/-- The array begins with the string and its terminator. -/
def Shows (b : Buf n) (s : CString) : Prop := s.chars ++ [nul] <+: b.chars

instance (b : Buf n) (s : CString) : Decidable (b.Shows s) := by
  unfold Shows
  infer_instance

variable {b b' : Buf n} {s : CString}

theorem Shows.length_lt (h : b.Shows s) : s.length < n := by
  have hle := h.length_le
  rw [List.length_append, b.size] at hle
  exact hle

theorem Shows.str_eq (h : b.Shows s) : b.str = s := by
  obtain ⟨rest, hrest⟩ := h
  have htake : b.chars.takeWhile (· != nul) = s.chars := by
    rw [← hrest, List.append_assoc, List.takeWhile_append_of_pos]
    · simp
    · intro c hc
      have hne : c ≠ nul := fun heq => s.noNul (heq ▸ hc)
      simpa using hne
  unfold str CString.ofChars
  cases s
  congr

theorem Shows.unique {s' : CString} (h : b.Shows s) (h' : b.Shows s') : s = s' :=
  h.str_eq.symm.trans h'.str_eq

/-- A string without NULs that is compared with a string in an array. -/
theorem Shows.memcmp_eq (h : b.Shows s) {tok : List Char} (htok : nul ∉ tok) :
    memcmp tok b.chars = some (decide (tok <+: s.chars)) := by
  obtain ⟨rest, hrest⟩ := h
  rw [← hrest, List.append_assoc]
  clear hrest
  generalize s.chars = chars
  induction chars generalizing tok with
  | nil =>
    cases tok with
    | nil => rfl
    | cons c tok =>
      have hc : c ≠ nul := fun hc => htok (hc ▸ List.mem_cons_self)
      simp [memcmp, hc]
  | cons d chars ih =>
    cases tok with
    | nil => simp [memcmp]
    | cons c tok =>
      rw [List.cons_append, memcmp]
      by_cases hcd : c = d
      · rw [if_pos hcd, ih fun hmem => htok (List.mem_cons_of_mem _ hmem), hcd]
        simp [List.cons_prefix_cons]
      · rw [if_neg hcd]
        simp [List.cons_prefix_cons, hcd]

theorem Shows.nul_mem (h : b.Shows s) : nul ∈ b.chars := h.subset (by simp)

theorem Shows.strlen_eq (h : b.Shows s) : b.strlen = some s.length := by
  rw [strlen, if_pos h.nul_mem, h.str_eq]

/-- A sequence begins with its string and the terminator, if there is one. -/
theorem ofChars_begins {l : List Char} (h : nul ∈ l) :
    (CString.ofChars l).chars ++ [nul] <+: l := by
  show l.takeWhile (· != nul) ++ [nul] <+: l
  induction l with
  | nil => cases h
  | cons c l ih =>
    by_cases hc : c = nul
    · subst hc
      exact ⟨l, by simp⟩
    · rw [List.takeWhile_cons_of_pos (by simpa using hc), List.cons_append,
        List.prefix_cons_inj]
      exact ih ((List.mem_cons.mp h).resolve_left (Ne.symm hc))

theorem shows_str (h : nul ∈ b.chars) : b.Shows b.str := ofChars_begins h

theorem shows_of_strlen {k : Nat} (h : b.strlen = some k) : b.Shows b.str := by
  unfold strlen at h
  split_ifs at h with hnul
  exact shows_str hnul

/-- A name that fits is the string that the array holds, also if it fills the array. -/
theorem str_strncpy (b : Buf n) (h : s.length ≤ n) : (b.strncpy s).str = s := by
  have htake : (strncpyBytes s n).takeWhile (· != nul) = s.chars := by
    rw [strncpyBytes_eq h, List.takeWhile_append_of_pos]
    · simp
    · intro c hc
      have hne : c ≠ nul := fun heq => s.noNul (heq ▸ hc)
      simpa using hne
  simp only [str, strncpy, CString.ofChars, htake]

/-- `strncpy` with a whole array terminates the strings that are shorter than the array. -/
theorem shows_strncpy (b : Buf n) (h : s.length < n) : (b.strncpy s).Shows s := by
  show s.chars ++ [nul] <+: strncpyBytes s n
  rw [strncpyBytes_eq (Nat.le_of_lt h), List.prefix_append_right_inj]
  obtain ⟨k, hk⟩ : ∃ k, n - s.length = k + 1 := ⟨n - s.length - 1, by omega⟩
  rw [hk, List.replicate_succ]
  exact ⟨_, rfl⟩

/-- Other strings fill the array. -/
theorem nul_not_mem_strncpy (b : Buf n) (h : n ≤ s.length) : nul ∉ (b.strncpy s).chars := by
  show nul ∉ strncpyBytes s n
  have hpad : n - s.length = 0 := by omega
  rw [strncpyBytes, hpad, List.replicate_zero, List.append_nil]
  exact fun hmem => s.noNul (List.take_subset _ _ hmem)

theorem strncpy_shows_iff (b : Buf n) : (∃ s', (b.strncpy s).Shows s') ↔ s.length < n := by
  constructor
  · rintro ⟨s', hs'⟩
    by_contra hge
    exact nul_not_mem_strncpy b (Nat.le_of_not_lt hge) hs'.nul_mem
  · exact fun h => ⟨s, shows_strncpy b h⟩

theorem store_eq_some {bytes : List Char} (h : b.store bytes = some b') :
    bytes.length ≤ n ∧ b'.chars = bytes ++ b.chars.drop bytes.length := by
  unfold store at h
  split_ifs at h with hle
  obtain rfl := Option.some.inj h
  exact ⟨hle, rfl⟩

theorem store_of_le {bytes : List Char} (b : Buf n) (h : bytes.length ≤ n) :
    ∃ b', b.store bytes = some b' ∧ b'.chars = bytes ++ b.chars.drop bytes.length := by
  unfold store
  rw [dif_pos h]
  exact ⟨_, rfl, rfl⟩

/-- `strcpy` stays inside the array exactly for the strings that fit. -/
theorem strcpy_of_lt (b : Buf n) (h : s.length < n) : ∃ b', b.strcpy s = some b' ∧ b'.Shows s := by
  have hle : (s.chars ++ [nul]).length ≤ n := by
    rw [List.length_append]
    exact h
  obtain ⟨b', hb', hchars⟩ := b.store_of_le hle
  refine ⟨b', hb', ?_⟩
  rw [Shows, hchars]
  exact List.prefix_append _ _

theorem strcpy_eq_some (h : b.strcpy s = some b') : b'.Shows s := by
  obtain ⟨-, hchars⟩ := store_eq_some h
  rw [Shows, hchars]
  exact List.prefix_append _ _

theorem strcpy_eq_none (b : Buf n) (h : n ≤ s.length) : b.strcpy s = none := by
  cases hb : b.strcpy s with
  | none => rfl
  | some b' =>
    have hlt := (strcpy_eq_some hb).length_lt
    omega

/-- A terminator behind a string that the array begins with. -/
theorem shows_set (hp : s.chars <+: b.chars) (hlt : s.length < n) :
    ∃ b', b.set s.length nul = some b' ∧ b'.Shows s := by
  unfold set
  rw [if_pos hlt]
  refine ⟨_, rfl, ?_⟩
  obtain ⟨rest, hrest⟩ := hp
  show s.chars ++ [nul] <+: b.chars.set s.length nul
  cases rest with
  | nil =>
    have hlen : s.length = n := by
      rw [← b.size, ← hrest, List.append_nil]
      rfl
    omega
  | cons c rest =>
    have hset : (s.chars ++ c :: rest).set s.chars.length nul = s.chars ++ nul :: rest := by
      rw [List.set_append_right _ _ (Nat.le_refl _), Nat.sub_self, List.set_cons_zero]
    rw [← hrest]
    exact ⟨rest, by rw [List.append_assoc]; exact hset.symm⟩

/-- A change behind the terminator does not change the string. -/
theorem Shows.set (h : b.Shows s) {i : Nat} {c : Char} (hi : s.length < i)
    (hb : b.set i c = some b') : b'.Shows s := by
  unfold Buf.set at hb
  split_ifs at hb
  obtain rfl := Option.some.inj hb
  obtain ⟨rest, hrest⟩ := h
  have hlen : (s.chars ++ [nul]).length ≤ i := by
    rw [List.length_append]
    exact hi
  show s.chars ++ [nul] <+: b.chars.set i c
  rw [← hrest, List.set_append_right _ _ hlen]
  exact List.prefix_append _ _

theorem Shows.begins (h : b.Shows s) : s.chars <+: b.chars := (List.prefix_append _ _).trans h

/-- `strncpy` with a part of the array. -/
theorem strncpyN_of_le (b : Buf n) {k : Nat} (hk : k ≤ n) :
    ∃ b', b.strncpyN s k = some b' ∧ b'.chars = strncpyBytes s k ++ b.chars.drop k := by
  have hle : (strncpyBytes s k).length ≤ n := by simpa using hk
  obtain ⟨b', hb', hchars⟩ := b.store_of_le hle
  rw [length_strncpyBytes] at hchars
  exact ⟨b', hb', hchars⟩

/-- A shorter string is terminated in the part that is written. -/
theorem shows_of_strncpyBytes {k : Nat} (hs : s.length < k) {rest : List Char}
    (hb : b.chars = strncpyBytes s k ++ rest) : b.Shows s := by
  obtain ⟨j, hj⟩ : ∃ j, k - s.length = j + 1 := ⟨k - s.length - 1, by omega⟩
  rw [Shows, hb, strncpyBytes_eq (Nat.le_of_lt hs), hj, List.replicate_succ, List.append_assoc]
  exact ⟨List.replicate j nul ++ rest, by simp⟩

end Buf

namespace CString

/-- The first `k` characters. -/
def cut (s : CString) (k : Nat) : CString :=
  ⟨s.chars.take k, fun h => s.noNul (List.take_subset _ _ h)⟩

theorem cut_begins (s : CString) (k : Nat) : (s.cut k).chars <+: s.chars := List.take_prefix _ _

theorem cut_of_le {s : CString} {k : Nat} (h : s.length ≤ k) : s.cut k = s := by
  cases s
  simp only [cut, mk.injEq]
  exact List.take_of_length_le h

theorem length_cut {s : CString} {k : Nat} (h : k ≤ s.length) : (s.cut k).length = k := by
  show (s.chars.take k).length = k
  rw [List.length_take]
  exact Nat.min_eq_left h

/-- One string behind the other. -/
def append (s t : CString) : CString :=
  ⟨s.chars ++ t.chars, fun h => (List.mem_append.mp h).elim s.noNul t.noNul⟩

theorem append_assoc (s t u : CString) : (s.append t).append u = s.append (t.append u) := by
  simp only [append, List.append_assoc]

theorem append_empty (s : CString) : s.append (lit "") = s := by
  cases s
  simp [append, lit, ofChars]

theorem length_append (s t : CString) : (s.append t).length = s.length + t.length :=
  List.length_append

/-- The string behind the first `i` characters. -/
def drop (s : CString) (i : Nat) : CString :=
  ⟨s.chars.drop i, fun h => s.noNul (List.drop_subset _ _ h)⟩

end CString

namespace Buf

variable {n : Nat}

/-- `memcpy(b + i, bytes, |bytes|)`. -/
def storeAt (b : Buf n) (i : Nat) (bytes : List Char) : Option (Buf n) :=
  if h : i + bytes.length ≤ n then
    some ⟨b.chars.take i ++ bytes ++ b.chars.drop (i + bytes.length), by
      rw [List.length_append, List.length_append, List.length_take, List.length_drop, b.size]
      omega⟩
  else none

/-- `strncat(b, s, k)`. -/
def strncat (b : Buf n) (s : CString) (k : Nat) : Option (Buf n) := do
  b.storeAt (← b.strlen) ((s.cut k).chars ++ [nul])

/-- The string that begins at `b + i`. -/
def strFrom (b : Buf n) (i : Nat) : Option CString :=
  if nul ∈ b.chars.drop i then some (.ofChars (b.chars.drop i)) else none

variable {b : Buf n} {s t : CString} {k : Nat}

/-- A string in an array, read from one of its characters on. -/
theorem Shows.strFrom (h : b.Shows s) {i : Nat} (hi : i ≤ s.length) :
    b.strFrom i = some (s.drop i) := by
  obtain ⟨rest, hrest⟩ := h
  have hdrop : b.chars.drop i = s.chars.drop i ++ [nul] ++ rest := by
    rw [← hrest, List.append_assoc, List.append_assoc, List.drop_append_of_le_length hi]
  have htail : (⟨b.chars.drop i, rfl⟩ : Buf _).Shows (s.drop i) := by
    show s.chars.drop i ++ [nul] <+: b.chars.drop i
    rw [hdrop]
    exact List.prefix_append _ _
  rw [Buf.strFrom, if_pos htail.nul_mem]
  exact congrArg some htail.str_eq

/-- The string without its terminator. -/
theorem Shows.memcpyFrom (h : b.Shows s) : b.memcpyFrom 0 s.length = some s.chars := by
  have hle : 0 + s.length ≤ n := by
    rw [Nat.zero_add]
    exact Nat.le_of_lt h.length_lt
  rw [Buf.memcpyFrom, if_pos hle, List.drop_zero]
  exact congrArg some (List.prefix_iff_eq_take.mp h.begins).symm

/-- `strncat` puts a string behind the one that the array holds, if there is room for both. -/
theorem Shows.strncat_of_lt (h : b.Shows s) (hk : t.length ≤ k) (hlt : s.length + t.length < n) :
    ∃ b', b.strncat t k = some b' ∧ b'.Shows (s.append t) := by
  have hroom : s.length + (t.chars ++ [nul]).length ≤ n := by
    rw [List.length_append]
    exact hlt
  have htake : b.chars.take s.length = s.chars := (List.prefix_iff_eq_take.mp h.begins).symm
  rw [strncat, h.strlen_eq, CString.cut_of_le hk]
  refine ⟨_, dif_pos hroom, ?_⟩
  show s.chars ++ t.chars ++ [nul] <+: b.chars.take s.length ++ (t.chars ++ [nul]) ++ _
  rw [htake, List.append_assoc s.chars]
  exact List.prefix_append _ _

/-- Without the room it leaves the array. -/
theorem Shows.strncat_eq_none (h : b.Shows s) (hk : t.length ≤ k) (hle : n ≤ s.length + t.length) :
    b.strncat t k = none := by
  have hroom : ¬ s.length + (t.chars ++ [nul]).length ≤ n := by
    rw [List.length_append]
    exact Nat.not_le_of_lt (Nat.lt_succ_of_le hle)
  rw [strncat, h.strlen_eq, CString.cut_of_le hk]
  exact dif_neg hroom

end Buf

end CLib
