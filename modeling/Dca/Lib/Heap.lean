import Mathlib.Data.List.Nodup
import Mathlib.Tactic.Basic

/-!
# Memory blocks and linked lists

A heap of blocks that `malloc` hands out and nobody frees, and singly linked lists in it.
`Links` says that the cells from a pointer on are those of a list. A list does not notice what
happens at other addresses, so with distinct addresses one cell can be changed at a time.
-/

namespace CLib

/-- The blocks in use. -/
structure Heap (α : Type) where
  blocks : Nat → Option α
  /-- The first address that has never been handed out. -/
  brk : Nat
  fresh : ∀ p, brk ≤ p → blocks p = none

namespace Heap

variable {α : Type}

/-- No block is in use. -/
def empty : Heap α := ⟨fun _ => none, 0, fun _ _ => rfl⟩

/-- `malloc(sizeof(α))`. `junk` is what the new block holds. -/
def malloc (h : Heap α) (junk : α) : Nat × Heap α :=
  (h.brk, {
    blocks := fun p => if p = h.brk then some junk else h.blocks p
    brk := h.brk + 1
    fresh := by
      intro p hp
      rw [if_neg (by omega)]
      exact h.fresh p (by omega) })

/-- `*p`, in a block that is in use. -/
def load (h : Heap α) (p : Nat) : Option α := h.blocks p

/-- `*p = a`, in a block that is in use. -/
def store (h : Heap α) (p : Nat) (a : α) : Option (Heap α) :=
  match hp : h.blocks p with
  | none => none
  | some _ => some {
      blocks := fun q => if q = p then some a else h.blocks q
      brk := h.brk
      fresh := by
        intro q hq
        have hne : q ≠ p := by
          rintro rfl
          rw [h.fresh q hq] at hp
          cases hp
        rw [if_neg hne]
        exact h.fresh q hq }

theorem load_lt {h : Heap α} {p : Nat} {a : α} (hp : h.load p = some a) : p < h.brk := by
  by_contra hge
  rw [load, h.fresh p (Nat.not_lt.mp hge)] at hp
  cases hp

@[simp] theorem load_malloc_self (h : Heap α) (junk : α) :
    (h.malloc junk).2.load h.brk = some junk := by
  simp [malloc, load]

theorem load_malloc_ne {h : Heap α} {junk : α} {p : Nat} (hp : p ≠ h.brk) :
    (h.malloc junk).2.load p = h.load p := by
  simp [malloc, load, hp]

/-- A store into a block that is in use succeeds and changes that block alone. -/
theorem store_eq_some {h : Heap α} {p : Nat} {a : α} (b : α) (hp : h.load p = some a) :
    ∃ h', h.store p b = some h' ∧ h'.load p = some b ∧ ∀ q, q ≠ p → h'.load q = h.load q := by
  unfold store
  unfold load at hp
  split
  · next hnone =>
    rw [hp] at hnone
    cases hnone
  · refine ⟨_, rfl, ?_, ?_⟩
    · simp [load]
    · intro q hq
      simp [load, hq]

/-- The last store counts. -/
theorem store_store {h h' : Heap α} {p : Nat} {a : α} (hs : h.store p a = some h') (b : α) :
    h'.store p b = h.store p b := by
  unfold store at hs
  split at hs
  · cases hs
  · next c hp =>
    obtain rfl := Option.some.inj hs
    unfold store
    split
    · next hnone => simp at hnone
    · split
      · next hnone =>
        rw [hp] at hnone
        cases hnone
      · congr 2
        funext q
        by_cases hq : q = p
        · simp [hq]
        · simp [hq]

end Heap

/-! ## Linked lists -/

variable {α : Type} (next : α → Option Nat)

/-- From the pointer `p` on there are the cells `l`, each with its address. -/
inductive Links (h : Heap α) : Option Nat → List (Nat × α) → Prop where
  | nil : Links h none []
  | cons {p : Nat} {a : α} {l : List (Nat × α)} (hp : h.load p = some a)
      (rest : Links h (next a) l) : Links h (some p) ((p, a) :: l)

variable {next}

namespace Links

variable {h h' : Heap α} {p : Option Nat} {l : List (Nat × α)}

theorem load_of_mem (hl : Links next h p l) {q : Nat} {a : α} (hmem : (q, a) ∈ l) :
    h.load q = some a := by
  induction hl with
  | nil => cases hmem
  | cons hp rest ih =>
    rcases List.mem_cons.mp hmem with heq | hmem
    · obtain ⟨rfl, rfl⟩ := Prod.mk.inj heq
      exact hp
    · exact ih hmem

/-- The addresses of a list are in use. -/
theorem lt_brk (hl : Links next h p l) {q : Nat} (hq : q ∈ l.map Prod.fst) : q < h.brk := by
  obtain ⟨⟨q', a⟩, hmem, rfl⟩ := List.mem_map.mp hq
  exact Heap.load_lt (hl.load_of_mem hmem)

/-- A list does not notice changes at other addresses. -/
theorem frame (hl : Links next h p l) (hsame : ∀ q ∈ l.map Prod.fst, h'.load q = h.load q) :
    Links next h' p l := by
  induction hl with
  | nil => exact .nil
  | cons hp rest ih =>
    rw [List.map_cons, List.forall_mem_cons] at hsame
    exact .cons (hsame.1.trans hp) (ih hsame.2)

theorem malloc (hl : Links next h p l) (junk : α) : Links next (h.malloc junk).2 p l :=
  hl.frame fun _ hq => Heap.load_malloc_ne (Nat.ne_of_lt (hl.lt_brk hq))

/-- From one pointer on there is one list. -/
theorem unique {l' : List (Nat × α)} (hl : Links next h p l) (hl' : Links next h p l') :
    l = l' := by
  induction hl generalizing l' with
  | nil =>
    cases hl'
    rfl
  | cons hp rest ih =>
    cases hl' with
    | cons hp' rest' =>
      obtain rfl := Option.some.inj (hp.symm.trans hp')
      rw [ih rest']

/-- The cells behind the first ones are a list as well. -/
theorem behind {l₁ l₂ : List (Nat × α)} (hl : Links next h p (l₁ ++ l₂)) :
    ∃ q, Links next h q l₂ := by
  induction l₁ generalizing p with
  | nil => exact ⟨p, hl⟩
  | cons c l₁ ih =>
    cases hl with
    | cons _ rest => exact ih rest

/-- The pointer to a list is that to its first cell. -/
theorem eq_head (hl : Links next h p l) : p = l.head?.map Prod.fst := by
  cases hl with
  | nil => rfl
  | cons _ _ => rfl

/-- Behind a cell the list goes on at its link. -/
theorem next_of {l₁ l₂ : List (Nat × α)} {q : Nat} {a : α}
    (hl : Links next h p (l₁ ++ (q, a) :: l₂)) : Links next h (next a) l₂ := by
  obtain ⟨r, hr⟩ := hl.behind
  cases hr with
  | cons _ rest => exact rest

/-- A list does not come back to a cell. -/
theorem nodup (hl : Links next h p l) : (l.map Prod.fst).Nodup := by
  induction hl with
  | nil => exact List.nodup_nil
  | @cons p a l hp rest ih =>
    refine List.nodup_cons.mpr ⟨fun hmem => ?_, ih⟩
    obtain ⟨⟨q, b⟩, hq, hqp⟩ := List.mem_map.mp hmem
    dsimp only at hqp
    subst hqp
    obtain ⟨l₁, l₂, rfl⟩ := List.append_of_mem hq
    -- the list from the cell on would be a part of itself
    obtain ⟨r, hr⟩ := rest.behind
    have hsame : (q, a) :: (l₁ ++ (q, b) :: l₂) = (q, b) :: l₂ := by
      cases hr with
      | cons hq' rest' => exact (Links.cons hp rest).unique (.cons hq' rest')
    have hlen := congrArg List.length hsame
    simp only [List.length_cons, List.length_append] at hlen
    omega

/-- A change that keeps the link of each cell, and a part of it, keeps the list up to the rest. -/
theorem rewrite {β : Type} (part : α → β) (hl : Links next h p l)
    (hkeep : ∀ q a, (q, a) ∈ l → ∃ b, h'.load q = some b ∧ next b = next a ∧ part b = part a) :
    ∃ l', Links next h' p l' ∧
      l'.map (fun x => (x.1, part x.2)) = l.map fun x => (x.1, part x.2) := by
  induction hl with
  | nil => exact ⟨[], .nil, rfl⟩
  | @cons p a l hp rest ih =>
    obtain ⟨b, hb, hnext, hpart⟩ := hkeep p a List.mem_cons_self
    obtain ⟨l', hl', hsame⟩ := ih fun q c hc => hkeep q c (List.mem_cons_of_mem _ hc)
    refine ⟨(p, b) :: l', .cons hb ?_, ?_⟩
    · rwa [hnext]
    · rw [List.map_cons, List.map_cons, hsame, hpart]

/-- A store that keeps the link of a cell changes the list at that cell alone. -/
theorem store {l₁ l₂ : List (Nat × α)} {q : Nat} {a b : α}
    (hl : Links next h p (l₁ ++ (q, a) :: l₂)) (hnd : ((l₁ ++ (q, a) :: l₂).map Prod.fst).Nodup)
    (hq : h'.load q = some b) (hsame : ∀ r, r ≠ q → h'.load r = h.load r)
    (hnext : next b = next a) : Links next h' p (l₁ ++ (q, b) :: l₂) := by
  induction l₁ generalizing p with
  | nil =>
    rw [List.nil_append] at hl hnd
    rw [List.map_cons, List.nodup_cons] at hnd
    cases hl with
    | cons hp rest =>
      refine .cons hq ?_
      rw [hnext]
      refine rest.frame ?_
      intro r hr
      exact hsame r (fun heq => hnd.1 (heq ▸ hr))
  | cons c l₁ ih =>
    rw [List.cons_append, List.map_cons, List.nodup_cons] at hnd
    cases hl with
    | @cons r a' l hr rest =>
      have hne : r ≠ q := by
        rintro rfl
        exact hnd.1 (by simp)
      exact .cons ((hsame r hne).trans hr) (ih rest hnd.2)

end Links

end CLib
