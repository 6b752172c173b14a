import Mathlib.Data.List.Nodup

/-!
# Lists of records with a key

A list of records that is searched from the front by a key, as a finite map: `lookupKey` is the
map, and changing the first record of a key changes the map at that key.
-/

namespace CLib

variable {α κ : Type} [DecidableEq κ] (key : α → κ)

/-- The first record of a key. -/
def lookupKey (k : κ) (l : List α) : Option α := l.find? (key · = k)

/-- Change the first record of a key. -/
def updateKey (f : α → α) (k : κ) : List α → List α
  | [] => []
  | a :: l => if key a = k then f a :: l else a :: updateKey f k l

/-- Change the first record of a key, and put a changed `a₀` in front if there is none. -/
def upsertKey (f : α → α) (k : κ) (a₀ : α) (l : List α) : List α :=
  if k ∈ l.map key then updateKey key f k l else f a₀ :: l

@[simp] theorem lookupKey_nil (k : κ) : lookupKey key k [] = none := rfl

theorem lookupKey_cons (k : κ) (a : α) (l : List α) :
    lookupKey key k (a :: l) = if key a = k then some a else lookupKey key k l := by
  unfold lookupKey
  by_cases h : key a = k
  · simp [h]
  · simp [h]

theorem lookupKey_isSome {k : κ} {l : List α} :
    (lookupKey key k l).isSome ↔ k ∈ l.map key := by
  simp [lookupKey, List.find?_isSome]

/-- Without duplicates every record is found under its key. -/
theorem lookupKey_of_mem {l : List α} (hnd : (l.map key).Nodup) {a : α} (h : a ∈ l) :
    lookupKey key (key a) l = some a := by
  induction l with
  | nil => cases h
  | cons b l ih =>
    rw [List.map_cons, List.nodup_cons] at hnd
    rw [lookupKey_cons]
    rcases List.mem_cons.mp h with rfl | h
    · rw [if_pos rfl]
    · have hne : key b ≠ key a := fun heq => hnd.1 (heq ▸ List.mem_map_of_mem h)
      rw [if_neg hne]
      exact ih hnd.2 h

variable {key}

@[simp] theorem updateKey_cons_self {f : α → α} {k : κ} {a : α} (h : key a = k) (l : List α) :
    updateKey key f k (a :: l) = f a :: l := by
  rw [updateKey, if_pos h]

@[simp] theorem updateKey_cons_ne {f : α → α} {k : κ} {a : α} (h : key a ≠ k) (l : List α) :
    updateKey key f k (a :: l) = a :: updateKey key f k l := by
  rw [updateKey, if_neg h]

/-- The first record of a key is behind records with other keys. -/
theorem updateKey_append {f : α → α} {k : κ} {l₁ : List α} (h : ∀ a ∈ l₁, key a ≠ k) (l₂ : List α) :
    updateKey key f k (l₁ ++ l₂) = l₁ ++ updateKey key f k l₂ := by
  induction l₁ with
  | nil => rfl
  | cons a l₁ ih =>
    obtain ⟨ha, h⟩ := List.forall_mem_cons.mp h
    rw [List.cons_append, updateKey_cons_ne ha, ih h, List.cons_append]

theorem updateKey_of_not_mem {f : α → α} {k : κ} {l : List α} (h : ∀ a ∈ l, key a ≠ k) :
    updateKey key f k l = l := by
  have happ := updateKey_append (f := f) h []
  rwa [List.append_nil, updateKey, List.append_nil] at happ

section Update

variable {f g : α → α} (hf : ∀ a, key (f a) = key a)
include hf

/-- An update that keeps the keys keeps their order. -/
theorem map_updateKey (k : κ) (l : List α) : (updateKey key f k l).map key = l.map key := by
  induction l with
  | nil => rfl
  | cons a l ih =>
    by_cases h : key a = k
    · rw [updateKey_cons_self h, List.map_cons, List.map_cons, hf]
    · rw [updateKey_cons_ne h, List.map_cons, List.map_cons, ih]

theorem lookupKey_updateKey (k k' : κ) (l : List α) :
    lookupKey key k' (updateKey key f k l)
      = if k' = k then (lookupKey key k l).map f else lookupKey key k' l := by
  induction l with
  | nil => simp [updateKey]
  | cons a l ih =>
    unfold updateKey
    split_ifs with ha hk hk
    · subst hk
      rw [lookupKey_cons, lookupKey_cons, hf, if_pos ha, if_pos ha]
      rfl
    · rw [lookupKey_cons, lookupKey_cons, hf, if_neg (fun h => hk (h.symm.trans ha)),
        if_neg (fun h => hk (h.symm.trans ha))]
    · rw [lookupKey_cons, ih, if_pos hk, lookupKey_cons, if_neg ha]
      subst hk
      rw [if_neg ha]
    · rw [lookupKey_cons, ih, if_neg hk, lookupKey_cons]

/-- Updates that commute on records commute on lists. -/
theorem updateKey_comm (hg : ∀ a, key (g a) = key a) (hfg : ∀ a, f (g a) = g (f a)) (k k' : κ)
    (l : List α) :
    updateKey key f k (updateKey key g k' l) = updateKey key g k' (updateKey key f k l) := by
  induction l with
  | nil => rfl
  | cons a l ih =>
    have hfa := hf a
    have hga := hg a
    by_cases hk : key a = k
    · by_cases hk' : key a = k'
      · rw [updateKey_cons_self hk', updateKey_cons_self hk, updateKey_cons_self (hga.trans hk),
          updateKey_cons_self (hfa.trans hk'), hfg]
      · have hne : key (f a) ≠ k' := fun h => hk' (hfa.symm.trans h)
        rw [updateKey_cons_ne hk', updateKey_cons_self hk, updateKey_cons_self hk,
          updateKey_cons_ne hne]
    · by_cases hk' : key a = k'
      · have hne : key (g a) ≠ k := fun h => hk (hga.symm.trans h)
        rw [updateKey_cons_self hk', updateKey_cons_ne hk, updateKey_cons_self hk',
          updateKey_cons_ne hne]
      · rw [updateKey_cons_ne hk', updateKey_cons_ne hk, updateKey_cons_ne hk,
          updateKey_cons_ne hk', ih]

end Update

section Upsert

variable {f : α → α} (hf : ∀ a, key (f a) = key a)
include hf

/-- New keys come in front of the old ones, which stay in order. -/
theorem map_upsertKey {k : κ} {a₀ : α} (h₀ : key a₀ = k) (l : List α) :
    (upsertKey key f k a₀ l).map key = if k ∈ l.map key then l.map key else k :: l.map key := by
  unfold upsertKey
  split_ifs
  · exact map_updateKey hf k l
  · rw [List.map_cons, hf, h₀]

theorem nodup_upsertKey {k : κ} {a₀ : α} (h₀ : key a₀ = k) {l : List α} (hnd : (l.map key).Nodup) :
    ((upsertKey key f k a₀ l).map key).Nodup := by
  rw [map_upsertKey hf h₀]
  split_ifs with hmem
  · exact hnd
  · exact List.nodup_cons.mpr ⟨hmem, hnd⟩

/-- On the map, an upsert changes one value, which is `a₀` before if there is none. -/
theorem lookupKey_upsertKey {k : κ} {a₀ : α} (h₀ : key a₀ = k) (k' : κ) (l : List α) :
    lookupKey key k' (upsertKey key f k a₀ l)
      = if k' = k then some (f ((lookupKey key k l).getD a₀)) else lookupKey key k' l := by
  unfold upsertKey
  by_cases hmem : k ∈ l.map key
  · rw [if_pos hmem, lookupKey_updateKey hf]
    obtain ⟨a, ha⟩ := Option.isSome_iff_exists.mp ((lookupKey_isSome key).mpr hmem)
    rw [ha]
    rfl
  · have hnone : lookupKey key k l = none := by
      rw [← Option.not_isSome_iff_eq_none, lookupKey_isSome]
      exact hmem
    rw [if_neg hmem, lookupKey_cons, hf, h₀, hnone]
    by_cases hk : k' = k
    · rw [if_pos hk, if_pos hk.symm]
      rfl
    · rw [if_neg hk, if_neg (fun h => hk h.symm)]

end Upsert

end CLib
