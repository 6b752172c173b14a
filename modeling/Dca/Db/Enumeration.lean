import Dca.Db.Tour
import Dca.Lib.Iterator

/-!
# Enumerations

A caller takes the children of a node one after the other and does other things in between, with
the children and with other nodes. These can change the shared variables, but not the variable that
the node is in. `Enumerates` says which children the calls give, whatever the shared variables are
at each call.
-/

namespace Dca

open CLib

variable (db : Db)

/-- A call of `db_node_get_next_child`, with the shared variables and the old value of the output
variable. The result has the node as it is left, and its child. -/
def takeChild (node : DbNode) (around : Globals × DbNode) : Res (DbNode × DbNode) := do
  let c ← dbNodeGetNextChild db ⟨around.1, node, around.2⟩
  return (c.node, c.child)

/-- Calls on the node give the items and then the null node for ever, whatever is done in between
that keeps `P`. -/
def Enumerates (P : Globals → Prop) (node : DbNode) (items : List DbNode) : Prop :=
  ∀ calls : List (Globals × DbNode), (∀ call ∈ calls, P call.1) →
    outputs (takeChild db) node calls = .ok (padded .null items calls.length)

/-- Calls of `db_node_get_next` lead from the node through the items and then to the null node. -/
inductive NextChain : DbNode → List DbNode → Prop where
  | last {node : DbNode} (h : ∀ out, dbNodeGetNext db node out = .ok .null) : NextChain node [node]
  | cons {node next : DbNode} {items : List DbNode}
      (h : ∀ out, dbNodeGetNext db node out = .ok next) (hrest : NextChain next items) :
      NextChain node (node :: items)

/-- The branches, one for each row of `db_index`. -/
def Db.branches : List DbNode :=
  (List.range db.dbIndex.length).map fun i => dbNewFlNode (UInt8.ofNat i)

/-- The nodes of the static entries of a branch. -/
def DbFlEntry.leaves (flIdx : UInt8) (e : DbFlEntry) : List DbNode :=
  (List.range e.staticEntries.length).map fun j => flNodeInit flIdx (UInt8.ofNat j) false

/-- The nodes of the dynamic entries of a branch. -/
def DbFlEntry.dynamicNodes (env : Env) (e : DbFlEntry) : List DbNode :=
  e.dynamicEntries.map fun d => d.getNodeFn.node env

variable {db}

theorem enumerates_of_supplies {P : Globals → Prop} {node : DbNode} {items : List DbNode}
    (h : Supplies (takeChild db) (fun around => P around.1) .null node items) :
    Enumerates db P node items := fun _ hcalls => h.outputs_eq hcalls

theorem takeChild_eq {node : DbNode} {around : Globals × DbNode} {c : Cursor}
    (h : dbNodeGetNextChild db ⟨around.1, node, around.2⟩ = .ok c) :
    takeChild db node around = .ok (c.node, c.child) := by
  rw [takeChild, h]
  rfl

/-! ## Tables -/

/-- The rows of a folder, from a position on. -/
theorem supplies_rows {node : DbNode} (hn : TableNode db node)
    (hlen : (tableRows db node).length ≤ 255) {rows : List TableRow} {k : UInt8}
    (hk : (tableRows db node).drop k.toNat = rows) :
    Supplies (takeChild db) (fun _ => True) .null (node.withPos k) (rows.map (·.node)) := by
  induction rows generalizing k with
  | nil =>
    have hge : (tableRows db node).length ≤ k.toNat := List.drop_eq_nil_iff.mp hk
    exact .nil fun around _ => takeChild_eq (getNextChild_end hn hge around.1 around.2)
  | cons row rows ih =>
    have hrow : (tableRows db node)[k.toNat]? = some row := by
      have h := congrArg (·[0]?) hk
      simpa using h
    have hlt : k.toNat < (tableRows db node).length := (List.getElem?_eq_some_iff.mp hrow).1
    have hk' : (k + 1).toNat = k.toNat + 1 := uint8_add_one (by omega)
    have hrest : (tableRows db node).drop (k + 1).toNat = rows := by
      rw [hk', ← List.drop_drop, hk]
      rfl
    exact .cons (fun around _ => takeChild_eq (getNextChild_row_eq hn hrow around.1 around.2))
      (ih hrest)

theorem nodes_root : (tableRows db dbGetRoot).map (·.node) = db.branches := by
  refine List.ext_getElem? fun i => ?_
  rw [dbGetRoot, tableRows, Db.branches, List.getElem?_map, List.getElem?_mapIdx, List.getElem?_map,
    Option.map_map]
  rcases Nat.lt_or_ge i db.dbIndex.length with hlt | hge
  · rw [List.getElem?_eq_getElem hlt, List.getElem?_range hlt]
    rfl
  · rw [List.getElem?_eq_none hge, List.getElem?_eq_none (by rwa [List.length_range])]
    rfl

theorem nodes_branch {flIdx : UInt8} {e : DbFlEntry} (he : db.dbIndex[flIdx.toNat]? = some e) :
    (tableRows db (dbNewFlNode flIdx)).map (·.node) = e.leaves flIdx ++ e.dynamicNodes db.env := by
  have hrows : tableRows db (dbNewFlNode flIdx) = e.rows db.env flIdx := by
    simp only [dbNewFlNode, flNodeInit, tableRows, he]
  rw [hrows, DbFlEntry.rows, List.map_append, List.map_map, DbFlEntry.dynamicNodes,
    DbFlEntry.leaves]
  congr 1
  refine List.ext_getElem? fun j => ?_
  rw [List.getElem?_map, List.getElem?_mapIdx, List.getElem?_map, Option.map_map]
  rcases Nat.lt_or_ge j e.staticEntries.length with hlt | hge
  · rw [List.getElem?_eq_getElem hlt, List.getElem?_range hlt]
    rfl
  · rw [List.getElem?_eq_none hge, List.getElem?_eq_none (by rwa [List.length_range])]
    rfl

/-! ## Following `db_node_get_next` -/

/-- A chain of numbered nodes. -/
theorem nextChain_range (node : Nat → DbNode) {n : Nat}
    (hnext : ∀ i, i + 1 < n → ∀ out, dbNodeGetNext db (node i) out = .ok (node (i + 1)))
    (hlast : ∀ i, i + 1 = n → ∀ out, dbNodeGetNext db (node i) out = .ok .null) (m : Nat) {i : Nat}
    (hi : i + m + 1 = n) : NextChain db (node i) ((List.range' i (m + 1)).map node) := by
  induction m generalizing i with
  | zero => exact .last (hlast i hi)
  | succ m ih =>
    rw [List.range'_succ, List.map_cons]
    exact .cons (hnext i (by omega)) (ih (by omega))

theorem nextChain_branches (hrows : db.dbIndex.length ≤ 255) (hne : db.dbIndex ≠ []) :
    NextChain db (dbNewFlNode 0) db.branches := by
  have hnext : ∀ i, i < db.dbIndex.length → ∀ out,
      dbNodeGetNext db (dbNewFlNode (UInt8.ofNat i)) out
        = .ok (if i + 1 < db.dbIndex.length then dbNewFlNode (UInt8.ofNat (i + 1)) else .null) := by
    intro i hi out
    have hi' : (UInt8.ofNat i).toNat = i := toNat_ofNat (by omega)
    have he : flEntry db (UInt8.ofNat i) = .ok db.dbIndex[i] :=
      flEntry_eq (by rw [hi']; exact List.getElem?_eq_getElem hi)
    simp only [dbNewFlNode, flNodeInit, dbNodeGetNext, flNodeGetnext, he, ok_bind, if_true, hi']
    split_ifs
    · rw [UInt8.ofNat_add]
      rfl
    · rfl
  obtain ⟨m, hm⟩ : ∃ m, db.dbIndex.length = m + 1 :=
    ⟨db.dbIndex.length - 1, by have := List.length_pos_iff.mpr hne; omega⟩
  rw [Db.branches, List.range_eq_range', hm]
  refine nextChain_range (fun i => dbNewFlNode (UInt8.ofNat i)) (n := m + 1) (i := 0) ?_ ?_ m
    (by omega)
  · intro i hi out
    rw [hnext i (by omega), if_pos (by omega)]
  · intro i hi out
    rw [hnext i (by omega), if_neg (by omega)]

theorem nextChain_leaves {flIdx : UInt8} {e : DbFlEntry} (he : db.dbIndex[flIdx.toNat]? = some e)
    (hentries : e.staticEntries.length ≤ 255) (hne : e.staticEntries ≠ []) :
    NextChain db (flNodeInit flIdx 0 false) (e.leaves flIdx) := by
  have hnext : ∀ j, j < e.staticEntries.length → ∀ out,
      dbNodeGetNext db (flNodeInit flIdx (UInt8.ofNat j) false) out
        = .ok (if j + 1 < e.staticEntries.length then flNodeInit flIdx (UInt8.ofNat (j + 1)) false
            else .null) := by
    intro j hj out
    have hj' : (UInt8.ofNat j).toNat = j := toNat_ofNat (by omega)
    have hs : staticEntry e (UInt8.ofNat j) = .ok e.staticEntries[j] := by
      rw [staticEntry, hj', List.getElem?_eq_getElem hj]
    have hj₁ : (UInt8.ofNat j + 1).toNat = j + 1 := by rw [uint8_add_one (by omega), hj']
    simp only [flNodeInit, dbNodeGetNext, flNodeGetnext, flEntry_eq he, hs, ok_bind,
      Bool.false_eq_true, if_false, hj₁]
    split_ifs
    · rw [UInt8.ofNat_add]
      rfl
    · rfl
  obtain ⟨m, hm⟩ : ∃ m, e.staticEntries.length = m + 1 :=
    ⟨e.staticEntries.length - 1, by have := List.length_pos_iff.mpr hne; omega⟩
  rw [DbFlEntry.leaves, List.range_eq_range', hm]
  refine nextChain_range (fun j => flNodeInit flIdx (UInt8.ofNat j) false) (n := m + 1)
    (i := 0) ?_ ?_ m (by omega)
  · intro j hj out
    rw [hnext j (by omega), if_pos (by omega)]
  · intro j hj out
    rw [hnext j (by omega), if_neg (by omega)]

/--
**The tables are enumerated completely, in order, and repeatably at the end.** The root gives a
branch for each row and a branch its static entries and then its dynamic ones, whatever is done in
between. `db_node_get_next` visits the same branches, and the same static entries.
-/
theorem tables_enumerated (db : Db) (hrows : db.dbIndex.length ≤ 255)
    (hentries : ∀ e ∈ db.dbIndex, e.staticEntries.length + e.dynamicEntries.length ≤ 255) :
    Enumerates db (fun _ => True) dbGetRoot db.branches ∧
      (db.dbIndex ≠ [] → NextChain db (dbNewFlNode 0) db.branches) ∧
      ∀ (flIdx : UInt8) (e : DbFlEntry), db.dbIndex[flIdx.toNat]? = some e →
        Enumerates db (fun _ => True) (dbNewFlNode flIdx)
          (e.leaves flIdx ++ e.dynamicNodes db.env) ∧
        (e.staticEntries ≠ [] → NextChain db (flNodeInit flIdx 0 false) (e.leaves flIdx)) := by
  refine ⟨?_, nextChain_branches hrows, fun flIdx e he => ⟨?_, ?_⟩⟩
  · have hlen : (tableRows db (.root 0)).length ≤ 255 := by
      rwa [tableRows, List.length_mapIdx]
    rw [← nodes_root]
    exact enumerates_of_supplies (supplies_rows (.root 0) hlen (k := 0) List.drop_zero)
  · have hlen : (tableRows db (dbNewFlNode flIdx)).length ≤ 255 := by
      rw [← List.length_map (fun row : TableRow => row.node), nodes_branch he, List.length_append,
        DbFlEntry.leaves, DbFlEntry.dynamicNodes, List.length_map, List.length_map,
        List.length_range]
      exact hentries e (List.mem_of_getElem? he)
    rw [← nodes_branch he]
    exact enumerates_of_supplies (supplies_rows (.branch 0 he) hlen (k := 0) List.drop_zero)
  · have := hentries e (List.mem_of_getElem? he)
    exact nextChain_leaves he (by omega)

theorem tables_enumerated_small :
    Enumerates smallDb (fun _ => True) dbGetRoot
        [.fl 0 0 true, .fl 1 0 true, .fl 2 0 true, .fl 3 0 true] ∧
      NextChain smallDb (.fl 0 0 true) [.fl 0 0 true, .fl 1 0 true, .fl 2 0 true, .fl 3 0 true] :=
  have h := tables_enumerated smallDb (by decide) (by decide)
  ⟨h.1, h.2.1 (by simp [smallDb, Db.ofEnv, dbIndex])⟩

/-! ## Processes -/

/-- The live threads, from a pid on. -/
theorem supplies_processes (n : Nat) {pid : Nat} (hpid : db.env.PidOrEnd pid)
    (hn : db.env.kernelPidLast < pid + n) :
    Supplies (takeChild db) (fun _ => True) .null (.ps pid .root)
      ((db.env.pidsFrom pid).map fun p => .ps p .process) := by
  induction n generalizing pid with
  | zero =>
    obtain rfl := hpid.resolve_left fun hlive => absurd hlive.2.1 (by omega)
    rw [pidsFrom_last]
    exact .nil fun around _ => takeChild_eq (next_psRoot_end around.2 (by omega))
  | succ n ih =>
    rcases hpid with hlive | rfl
    · obtain ⟨next, hnext, hgt, hend⟩ := getNextPid_eq hlive.1 hlive.2.1
      rw [pidsFrom_next hlive hnext, List.map_cons]
      exact .cons (fun around _ => takeChild_eq (next_psRoot around.2 hlive.2.1 hnext))
        (ih hend (by omega))
    · rw [pidsFrom_last]
      exact .nil fun around _ => takeChild_eq (next_psRoot_end around.2 (by omega))

variable (db) in
/-- The list of the processes is that of the live threads, in the order of their pids. -/
def ListsThreads : Prop :=
  Enumerates db (fun _ => True) dbNewPsNode
    ((db.env.pidsFrom kernelPidFirst).map fun pid => .ps pid .process)

/-- The first slot of the table, where there is one, is occupied. -/
def Env.FirstSlot (env : Env) : Prop :=
  kernelPidFirst ≤ env.kernelPidLast → (env.schedThreads kernelPidFirst).isSome

/-- The first call gives the node of the first pid, whatever is in its slot. -/
theorem first_process (hle : kernelPidFirst ≤ db.env.kernelPidLast) (around : Globals × DbNode) :
    ∃ node, takeChild db dbNewPsNode around = .ok (node, .ps kernelPidFirst .process) := by
  obtain ⟨next, hnext, -, -⟩ := getNextPid_eq (Nat.le_refl _) hle
  exact ⟨.ps next .root, takeChild_eq (next_psRoot around.2 hle hnext)⟩

/--
**The processes that are listed are the live threads when the first slot is occupied**, and only
then: the list begins at the first pid, whatever is in its slot.
-/
theorem listsThreads_iff (db : Db) : ListsThreads db ↔ db.env.FirstSlot := by
  constructor
  · intro h hle
    obtain ⟨node, hfirst⟩ := first_process hle ({}, .null)
    have hcall := h [({}, .null)] (by simp)
    simp only [outputs, hfirst, ok_bind] at hcall
    have hout : [DbNode.ps kernelPidFirst .process] = padded .null
        ((db.env.pidsFrom kernelPidFirst).map fun pid => .ps pid .process) 1 := Except.ok.inj hcall
    cases hpids : db.env.pidsFrom kernelPidFirst with
    | nil =>
      rw [hpids] at hout
      simp at hout
    | cons pid pids =>
      rw [hpids, List.map_cons, padded_cons, padded_zero] at hout
      obtain rfl : kernelPidFirst = pid := by simpa using hout
      exact (mem_pidsFrom.mp (hpids ▸ List.mem_cons_self)).2.2
  · intro h
    refine enumerates_of_supplies ?_
    by_cases hle : kernelPidFirst ≤ db.env.kernelPidLast
    · exact supplies_processes db.env.kernelPidLast (Or.inl ⟨Nat.le_refl _, hle, h hle⟩)
        (Nat.lt_add_of_pos_left (by decide))
    · have hzero : db.env.kernelPidLast = 0 := Nat.lt_one_iff.mp (Nat.lt_of_not_le hle)
      exact supplies_processes 1 (Or.inr (by rw [hzero]; rfl)) (by omega)

/-- A table in which the thread of the first slot has ended. -/
def endedEnv : Env where
  __ := smallEnv
  schedThreads pid := if pid = 2 then smallEnv.schedThreads 2 else none

/-- A process node for a free slot. -/
theorem not_listsThreads : ¬ ListsThreads (.ofEnv {} endedEnv) := by
  intro h
  have hcall := h [({}, .null)] (by simp)
  exact absurd hcall (by decide)

end Dca
