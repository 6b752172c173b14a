import Mathlib.Data.List.Forall2
import Mathlib.Tactic.Basic

/-!
# Forests and their listings

A forest is listed depth first, each node with its depth. From the depths the way to each node can
be told: it is the way to the node before it, cut off at the level above.
-/

namespace CLib

/-- Ordered trees side by side. -/
inductive Forest (α : Type) where
  | nil
  | node (a : α) (children siblings : Forest α)

/-- What stands on the right of related lists is related to something on the left. -/
theorem exists_left_of_forall₂ {α β : Type} {R : α → β → Prop} {xs : List α} {ys : List β}
    (h : List.Forall₂ R xs ys) {y : β} (hy : y ∈ ys) : ∃ x ∈ xs, R x y := by
  induction h with
  | nil => cases hy
  | cons hr _ ih =>
    rcases List.mem_cons.mp hy with rfl | hy
    · exact ⟨_, List.mem_cons_self, hr⟩
    · obtain ⟨x, hx, hr⟩ := ih hy
      exact ⟨x, List.mem_cons_of_mem _ hx, hr⟩

namespace Forest

variable {α β : Type}

/-- The tree of one node without children. -/
def leaf (a : α) : Forest α := .node a .nil .nil

/-- The nodes in depth-first order, each with its depth. -/
def preorder : Nat → Forest α → List (Nat × α)
  | _, .nil => []
  | depth, .node a cs ss => (depth, a) :: (cs.preorder (depth + 1) ++ ss.preorder depth)

/-- The number of nodes in the first `k` levels. -/
def upper : Nat → Forest α → Nat
  | 0, _ => 0
  | _ + 1, .nil => 0
  | k + 1, .node _ cs ss => cs.upper k + 1 + ss.upper (k + 1)

@[simp] theorem upper_zero (f : Forest α) : f.upper 0 = 0 := by
  rw [upper]

@[simp] theorem upper_nil (k : Nat) : (nil : Forest α).upper k = 0 := by
  cases k <;> rfl

theorem le_of_mem_preorder {f : Forest α} {depth : Nat} {x : Nat × α} (h : x ∈ f.preorder depth) :
    depth ≤ x.1 := by
  induction f generalizing depth with
  | nil => cases h
  | node a cs ss ihChildren ihSiblings =>
    rw [preorder, List.mem_cons, List.mem_append] at h
    rcases h with rfl | h | h
    · exact Nat.le_refl _
    · exact Nat.le_of_succ_le (ihChildren h)
    · exact ihSiblings h

/-- The number of levels. -/
def height : Forest α → Nat
  | .nil => 0
  | .node _ cs ss => max (cs.height + 1) ss.height

/-- **The upper levels of a listing** are those of the forest. -/
theorem countP_preorder (f : Forest α) (k depth : Nat) :
    (f.preorder depth).countP (fun x => x.1 < depth + k) = f.upper k := by
  induction f generalizing k depth with
  | nil => rw [upper_nil, preorder, List.countP_nil]
  | node a cs ss ihChildren ihSiblings =>
    cases k with
    | zero =>
      rw [upper_zero, List.countP_eq_zero]
      intro x hx
      have := le_of_mem_preorder hx
      simpa using this
    | succ k =>
      have hchildren := ihChildren k (depth + 1)
      rw [Nat.add_right_comm] at hchildren
      rw [preorder, List.countP_cons_of_pos (by simp), List.countP_append, ihSiblings, upper,
        show depth + (k + 1) = depth + k + 1 from rfl, hchildren]
      omega

/-- The nodes, each with the labels on the way to it. -/
def ways (label : α → β) : List β → Forest α → List (List β × α)
  | _, .nil => []
  | way, .node a cs ss =>
    (way ++ [label a], a) :: (ways label (way ++ [label a]) cs ++ ways label way ss)

/-- What stands in front of the ways. -/
theorem ways_eq_map (label : α → β) (way : List β) (f : Forest α) :
    ways label way f = (ways label [] f).map fun x => (way ++ x.1, x.2) := by
  induction f generalizing way with
  | nil => rfl
  | node a cs ss ihChildren ihSiblings =>
    rw [ways, ways, ihChildren, ihSiblings, ihChildren ([] ++ [label a]), List.map_cons,
      List.map_append, List.map_map]
    simp only [Function.comp_def, List.append_assoc, List.nil_append]

/-- The way to each node of a listing, with the labels of the nodes before it. -/
def listedWays (label : α → β) : List β → List (Nat × α) → List (List β × α)
  | _, [] => []
  | way, (depth, a) :: rest =>
    (way.take (depth - 1) ++ [label a], a)
      :: listedWays label (way.take (depth - 1) ++ [label a]) rest

/-- Every node has the property. -/
def All (P : α → Prop) : Forest α → Prop
  | .nil => True
  | .node a cs ss => P a ∧ cs.All P ∧ ss.All P

theorem All.of_mem_preorder {P : α → Prop} {f : Forest α} (h : f.All P) {depth : Nat}
    {x : Nat × α} (hx : x ∈ f.preorder depth) : P x.2 := by
  induction f generalizing depth with
  | nil => cases hx
  | node a cs ss ihChildren ihSiblings =>
    obtain ⟨ha, hcs, hss⟩ := h
    rw [preorder, List.mem_cons, List.mem_append] at hx
    rcases hx with rfl | hx | hx
    · exact ha
    · exact ihChildren hcs hx
    · exact ihSiblings hss hx

/-- Every tree of the forest has the property: its root, and the forest below the root. -/
def AllTrees (Q : α → Forest α → Prop) : Forest α → Prop
  | .nil => True
  | .node a cs ss => Q a cs ∧ ss.AllTrees Q

theorem AllTrees.imp {Q Q' : α → Forest α → Prop} {f : Forest α} (h : f.AllTrees Q)
    (himp : ∀ a cs, Q a cs → Q' a cs) : f.AllTrees Q' := by
  induction f with
  | nil => trivial
  | node a cs ss _ ih => exact ⟨himp a cs h.1, ih h.2⟩

/-- A way leads to the root of a tree, or below it. -/
theorem AllTrees.of_mem_ways {Q : α → Forest α → Prop} {f : Forest α} (h : f.AllTrees Q)
    {label : α → β} {way : List β} {b : α} (hx : (way, b) ∈ ways label [] f) :
    ∃ a cs, Q a cs ∧
      ((way = [label a] ∧ b = a) ∨ ∃ rest, way = label a :: rest ∧ (rest, b) ∈ ways label [] cs) := by
  induction f with
  | nil => cases hx
  | node a cs ss _ ih =>
    rw [ways, List.mem_cons, List.mem_append] at hx
    rcases hx with hx | hx | hx
    · obtain ⟨rfl, rfl⟩ := Prod.mk.inj hx
      exact ⟨_, cs, h.1, Or.inl ⟨rfl, rfl⟩⟩
    · rw [ways_eq_map] at hx
      obtain ⟨⟨rest, b'⟩, hmem, heq⟩ := List.mem_map.mp hx
      obtain ⟨rfl, rfl⟩ := Prod.mk.inj heq
      exact ⟨a, cs, h.1, Or.inr ⟨rest, rfl, hmem⟩⟩
    · exact ih h.2 hx

/-- A way below the first root. -/
theorem mem_ways_below {label : α → β} {a : α} {cs ss : Forest α} {way : List β} {b : α}
    (h : (way, b) ∈ ways label [] cs) : (label a :: way, b) ∈ ways label [] (.node a cs ss) := by
  rw [ways, List.mem_cons, List.mem_append, ways_eq_map]
  exact Or.inr (Or.inl (List.mem_map_of_mem h))

theorem mem_ways_root (label : α → β) (a : α) (cs ss : Forest α) :
    ([label a], a) ∈ ways label [] (.node a cs ss) := List.mem_cons_self

/-- A way behind the first tree. -/
theorem mem_ways_behind {label : α → β} {a : α} {cs ss : Forest α} {x : List β × α}
    (h : x ∈ ways label [] ss) : x ∈ ways label [] (.node a cs ss) :=
  List.mem_cons_of_mem _ (List.mem_append_right _ h)

/-- Listings with the same depths and the same labels show the same ways. -/
theorem listedWays_rel {γ : Type} {label : α → β} {label' : γ → β} {R : α → γ → Prop}
    {xs : List (Nat × α)} {ys : List (Nat × γ)}
    (h : List.Forall₂ (fun x y => x.1 = y.1 ∧ label x.2 = label' y.2 ∧ R x.2 y.2) xs ys)
    (way : List β) :
    List.Forall₂ (fun x y => x.1 = y.1 ∧ R x.2 y.2) (listedWays label way xs)
      (listedWays label' way ys) := by
  induction h generalizing way with
  | nil => exact .nil
  | @cons x y xs ys hxy _ ih =>
    obtain ⟨depth, a⟩ := x
    obtain ⟨depth', b⟩ := y
    obtain ⟨rfl, hlabel, hrel⟩ := hxy
    dsimp only at hlabel
    simp only [listedWays, hlabel]
    exact .cons ⟨rfl, hrel⟩ (ih _)

/-- The forest that a listing shows: what is listed deeper than a node, up to the next one that is
not, is below it. -/
def ofListing (depth : Nat) : List (Nat × α) → Forest α
  | [] => .nil
  | (_, a) :: rest =>
    .node a (ofListing (depth + 1) (rest.takeWhile (depth < ·.1)))
      (ofListing depth (rest.dropWhile (depth < ·.1)))
termination_by listing => listing.length
decreasing_by
  · exact Nat.lt_succ_of_le (List.takeWhile_sublist _).length_le
  · exact Nat.lt_succ_of_le (List.dropWhile_sublist _).length_le

/-- **A listing shows its forest.** -/
theorem ofListing_preorder (f : Forest α) (depth : Nat) : ofListing depth (f.preorder depth) = f := by
  induction f generalizing depth with
  | nil => rw [preorder, ofListing]
  | node a cs ss ihChildren ihSiblings =>
    have hbelow : ∀ x ∈ cs.preorder (depth + 1), decide (depth < x.1) = true :=
      fun x hx => decide_eq_true (le_of_mem_preorder hx)
    have hbehind : (ss.preorder depth).takeWhile (depth < ·.1) = [] ∧
        (ss.preorder depth).dropWhile (depth < ·.1) = ss.preorder depth := by
      cases ss <;> simp [preorder]
    rw [preorder, ofListing, List.takeWhile_append_of_pos hbelow,
      List.dropWhile_append_of_pos hbelow, hbehind.1, hbehind.2, List.append_nil, ihChildren,
      ihSiblings]

/-- Forests of one shape, with related nodes at each place. -/
inductive Alike (R : α → β → Prop) : Forest α → Forest β → Prop where
  | nil : Alike R .nil .nil
  | node {a : α} {b : β} {cs ss : Forest α} {cs' ss' : Forest β} (h : R a b)
      (children : Alike R cs cs') (siblings : Alike R ss ss') :
      Alike R (.node a cs ss) (.node b cs' ss')

/-- A listing with the same depths is one of a forest of the same shape. -/
theorem alike_of_preorder {R : α → β → Prop} {f : Forest α} {depth : Nat} {ys : List (Nat × β)}
    (h : List.Forall₂ (fun x y => x.1 = y.1 ∧ R x.2 y.2) (f.preorder depth) ys) :
    ∃ f', ys = f'.preorder depth ∧ Alike R f f' := by
  induction f generalizing depth ys with
  | nil =>
    cases h
    exact ⟨.nil, rfl, .nil⟩
  | node a cs ss ihChildren ihSiblings =>
    rw [preorder] at h
    cases h with
    | @cons _ y _ ys hxy hrest =>
      obtain ⟨d, b⟩ := y
      obtain ⟨hdepth, hab⟩ := hxy
      have hchildren := List.forall₂_take (cs.preorder (depth + 1)).length hrest
      have hsiblings := List.forall₂_drop (cs.preorder (depth + 1)).length hrest
      rw [List.take_left] at hchildren
      rw [List.drop_left] at hsiblings
      obtain ⟨cs', hcs, hlike⟩ := ihChildren hchildren
      obtain ⟨ss', hss, hlike'⟩ := ihSiblings hsiblings
      refine ⟨.node b cs' ss', ?_, .node hab hlike hlike'⟩
      rw [preorder, ← hcs, ← hss, List.take_append_drop]
      obtain rfl : depth = d := hdepth
      rfl

/-- **A listing of a forest shows the ways.** The listing may go on behind the forest. -/
theorem listedWays_preorder (label : α → β) (f : Forest α) {depth : Nat} {way : List β}
    (h : depth ≤ way.length) :
    ∃ way', way'.take depth = way.take depth ∧ depth ≤ way'.length ∧
      ∀ rest, listedWays label way (f.preorder (depth + 1) ++ rest)
        = ways label (way.take depth) f ++ listedWays label way' rest := by
  induction f generalizing depth way with
  | nil => exact ⟨way, rfl, h, fun rest => rfl⟩
  | node a cs ss ihChildren ihSiblings =>
    have hlen : (way.take depth ++ [label a]).length = depth + 1 := by
      rw [List.length_append, List.length_take, List.length_singleton, Nat.min_eq_left h]
    obtain ⟨way₁, htake₁, hlen₁, hcs⟩ := ihChildren (Nat.le_of_eq hlen.symm)
    rw [List.take_of_length_le (Nat.le_of_eq hlen)] at htake₁ hcs
    have hway₁ : way₁.take depth = way.take depth := by
      have := congrArg (List.take depth) htake₁
      rwa [List.take_take, Nat.min_eq_left (Nat.le_succ depth), List.take_append_of_le_length
        (by rw [List.length_take]; omega), List.take_take, Nat.min_self] at this
    obtain ⟨way₂, htake₂, hlen₂, hss⟩ := ihSiblings (show depth ≤ way₁.length by omega)
    refine ⟨way₂, htake₂.trans hway₁, hlen₂, fun rest => ?_⟩
    rw [preorder, List.cons_append, List.append_assoc, listedWays, Nat.add_sub_cancel, hcs, hss,
      hway₁, ways, List.cons_append, List.append_assoc]

end Forest

end CLib
