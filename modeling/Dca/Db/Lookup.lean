import Dca.Db.Steps

/-!
# What a lookup comes to

`LookupInvariant` speaks of the lookups that come back. Here the calls that a lookup makes are
known by what they come to, traps included: from a rule for each call follows the rule for the
lookup (`LookupRule.find`). The calls read only `node`, `child` and the shared variables, so the
invariant is one of cursors.
-/

namespace Dca

open CLib

variable (db : Db)

/--
A property of cursors that each call of a lookup keeps and that is handed on to children. A trap
satisfies `E`. The components satisfy `P`.
-/
structure LookupRule (P : List Char → Prop) (E : Trap → Prop) (I : Cursor → Prop) : Prop where
  next : ∀ {c : Cursor}, I c → Outcome E I (dbNodeGetNextChild db c)
  isNull : ∀ {c : Cursor}, I c → Outcome E (fun _ => True) (dbNodeIsNull db c.g c.child)
  name : ∀ {c : Cursor} (b : NameBuf), I c → dbNodeIsNull db c.g c.child = .ok false →
    Outcome E (fun _ => True) (dbNodeGetName db c.g c.child b)
  descend : ∀ {c : Cursor}, I c → dbNodeIsNull db c.g c.child = .ok false →
    I ⟨c.g, c.child, c.child⟩
  /-- `memcmp` can read past the name buffer for a component that is longer. -/
  bounds : ∀ comp, P comp → dbNodeNameMax < comp.length → E .bounds
  fuel : E .fuel

variable {db}

/-- `memcmp` reads past the name buffer only for a component that is longer. -/
theorem length_lt_of_memcmp {comp : List Char} {nameBuf : NameBuf}
    (h : Buf.memcmp comp nameBuf.chars = none) : dbNodeNameMax < comp.length := by
  obtain ⟨-, hlt⟩ := Buf.memcmp_eq_none.mp h
  rw [nameBuf.size] at hlt
  exact hlt

namespace LookupRule

variable {P : List Char → Prop} {E : Trap → Prop} {I : Cursor → Prop}

/-- **One round of the inner loop after the other.** -/
theorem search (hi : LookupRule db P E I) {comp : List Char} (hcomp : P comp) (fuel : Nat)
    {s : Search} (hs : I s.cur) :
    Outcome E (fun r : Bool × Search => I r.2.cur ∧
      (r.1 = true → dbNodeIsNull db r.2.cur.g r.2.cur.child = .ok false))
      (searchChild db comp fuel s) := by
  induction fuel generalizing s with
  | zero => exact hi.fuel
  | succ fuel ih =>
    rw [searchChild]
    refine (hi.next hs).bind fun cur _ hcur => ?_
    refine (hi.isNull hcur).bind fun isNull hnull _ => ?_
    cases isNull with
    | true => exact ⟨hcur, fun h => by cases h⟩
    | false =>
      rw [if_neg (by simp)]
      refine (hi.name s.nameBuf hcur hnull).bind fun nameBuf _ _ => ?_
      cases hcmp : Buf.memcmp comp nameBuf.chars with
      | none => exact hi.bounds comp hcomp (length_lt_of_memcmp hcmp)
      | some eq =>
        cases eq with
        | true => exact ⟨hcur, fun _ => hnull⟩
        | false => exact ih hcur

theorem descendOutcome (hi : LookupRule db P E I) {comp : List Char} (hcomp : P comp) (fuel : Nat)
    {d : Descent} (hd : I ⟨d.g, d.node, d.node⟩) :
    Outcome (fun stop => ∀ t, stop = .trap t → E t)
      (fun d' : Descent => I ⟨d'.g, d'.node, d'.node⟩) (Dca.descend db fuel d comp) := by
  unfold Dca.descend
  have hsearch := hi.search hcomp fuel (s := ⟨⟨d.g, d.node, d.node⟩, d.nameBuf⟩) hd
  cases hr : searchChild db comp fuel ⟨⟨d.g, d.node, d.node⟩, d.nameBuf⟩ with
  | error t =>
    rintro t' ht
    obtain rfl := Stop.trap.inj ht
    exact hsearch.of_eq_error hr
  | ok r =>
    obtain ⟨hcur, hnull⟩ := hsearch.of_eq_ok hr
    obtain ⟨found, s⟩ := r
    cases found with
    | false =>
      rintro t ht
      cases ht
    | true => exact hi.descend hcur (hnull rfl)

theorem foldOutcome (hi : LookupRule db P E I) (fuel : Nat) {comps : List (List Char)}
    (hcomps : ∀ comp ∈ comps, P comp) {d : Descent} (hd : I ⟨d.g, d.node, d.node⟩) :
    Outcome (fun stop => ∀ t, stop = .trap t → E t)
      (fun d' : Descent => I ⟨d'.g, d'.node, d'.node⟩)
      (comps.foldlM (Dca.descend db fuel) d) := by
  induction comps generalizing d with
  | nil => exact hd
  | cons comp comps ih =>
    obtain ⟨hcomp, hcomps⟩ := List.forall_mem_cons.mp hcomps
    rw [List.foldlM_cons]
    exact (hi.descendOutcome hcomp fuel hd).bind fun d' _ hd' => ih hcomps hd'

/-- **What a lookup comes to**: what holds at the root holds at the node that is found. -/
theorem find (hi : LookupRule db P E I) (fuel : Nat) {g : Globals}
    (hroot : I ⟨g, dbGetRoot, dbGetRoot⟩) {path : CString}
    (hpath : ∀ comp ∈ pathComponents path, P comp) (child : DbNode) (nameBuf : NameBuf) :
    Outcome E (fun found : Found => found.code = 0 → I ⟨found.g, found.node, found.node⟩)
      (dbFindNodeByPath db fuel g path child nameBuf) := by
  rw [dbFindNodeByPath_eq_fold]
  have hfold := hi.foldOutcome fuel hpath (d := .start g) hroot
  cases hr : (pathComponents path).foldlM (Dca.descend db fuel) (.start g) with
  | ok d => exact fun _ => hfold.of_eq_ok hr
  | error stop =>
    cases stop with
    | trap t => exact hfold.of_eq_error hr t rfl
    | notFound g' node =>
      intro hcode
      simp [enoent] at hcode

end LookupRule

/-- A lookup returns 0 or `-ENOENT`. -/
theorem code_of_find {fuel : Nat} {g : Globals} {path : CString} {child : DbNode}
    {nameBuf : NameBuf} {found : Found}
    (h : dbFindNodeByPath db fuel g path child nameBuf = .ok found) :
    found.code = 0 ∨ found.code = enoent := by
  rw [dbFindNodeByPath_eq_fold] at h
  cases hr : (pathComponents path).foldlM (descend db fuel) (.start g) with
  | ok d =>
    rw [hr] at h
    obtain rfl := Except.ok.inj h
    exact Or.inl rfl
  | error stop =>
    rw [hr] at h
    cases stop with
    | trap t => simp [lookupResult] at h
    | notFound g' node =>
      obtain rfl := Except.ok.inj h
      exact Or.inr rfl

end Dca
