import Dca.Db.Path

/-!
# What a lookup does in the tables

The root node and the branches take their children from `db_index`, one row after the other, and
the position is one byte. `tableStep` says what a lookup does there by looking at the names only: it
takes the first row whose name begins with the component. A row of type null ends the level, a name of
30 bytes that is a proper beginning of the component lets `memcmp` run out of the name buffer, and a
level of 256 rows or more has no end. `descend_tableStep` is the connection to the code.
-/

namespace Dca

open CLib

variable (db : Db)

/-! ## The rows of a folder -/

/-- What the node of a dynamic entry copies as its name. -/
def GetNodeFn.nodeText : GetNodeFn → CString
  | .dbNewPsNode => .lit "ps"
  | .dbNewSaulNode => .lit "devices"
  | .dbNewNetifNode => .lit "netif"

theorem GetNodeFn.nodeText_fits (f : GetNodeFn) : f.nodeText.length ≤ dbNodeNameMax := by
  cases f <;> decide

/-- The name that the node of a dynamic entry has. -/
def GetNodeFn.nodeName (f : GetNodeFn) : DbName := ⟨f.nodeText, f.nodeText_fits⟩

/-- The node of a dynamic entry. -/
def GetNodeFn.node (env : Env) : GetNodeFn → DbNode
  | .dbNewPsNode => Dca.dbNewPsNode
  | .dbNewSaulNode => Dca.dbNewSaulNode env
  | .dbNewNetifNode => netifNodeInit (env.netifIter none) .root

/-- A child of a folder of the tables. -/
structure TableRow where
  name : DbName
  type : DbNodeType
  node : DbNode

/-- The rows of a branch: its static entries and then its dynamic ones. -/
def DbFlEntry.rows (env : Env) (flIdx : UInt8) (e : DbFlEntry) : List TableRow :=
  (e.staticEntries.mapIdx fun j s => ⟨s.name, s.type, .fl flIdx (UInt8.ofNat j) false⟩)
    ++ e.dynamicEntries.map fun d => ⟨d.getNodeFn.nodeName, .inner, d.getNodeFn.node env⟩

/-- The rows of a folder, wherever its position is. -/
def tableRows : DbNode → List TableRow
  | .root _ => db.dbIndex.mapIdx fun i e => ⟨e.branchName, .inner, dbNewFlNode (UInt8.ofNat i)⟩
  | .fl flIdx _ true =>
    match db.dbIndex[flIdx.toNat]? with
    | some e => e.rows db.env flIdx
    | none => []
  | _ => []

/-- The node with its position set to `k`. -/
def DbNode.withPos (k : UInt8) : DbNode → DbNode
  | .root _ => .root k
  | .fl flIdx _ true => .fl flIdx k true
  | node => node

/-- The nodes of the tables: the root, the branches and the static entries. -/
inductive TableNode : DbNode → Prop where
  | root (idx : UInt8) : TableNode (.root idx)
  | branch {flIdx : UInt8} {e : DbFlEntry} (subIdx : UInt8)
      (branch : db.dbIndex[flIdx.toNat]? = some e) : TableNode (.fl flIdx subIdx true)
  | static {flIdx subIdx : UInt8} {e : DbFlEntry} {s : DbFlStaticEntry}
      (branch : db.dbIndex[flIdx.toNat]? = some e)
      (entry : e.staticEntries[subIdx.toNat]? = some s) : TableNode (.fl flIdx subIdx false)

/-- What a lookup can find in the tables: their nodes, at position 0, and the dynamic entries. -/
inductive TableChild : DbNode → Prop where
  | table {node : DbNode} (table : TableNode db node) (pos : node.withPos 0 = node) :
      TableChild node
  | dynamic (f : GetNodeFn) : TableChild (f.node db.env)

variable {db}

theorem flEntry_eq {flIdx : UInt8} {e : DbFlEntry} (h : db.dbIndex[flIdx.toNat]? = some e) :
    flEntry db flIdx = .ok e := by
  rw [flEntry, h]

/-- A row of a branch is a static entry or, behind these, a dynamic one. -/
theorem rows_getElem? {env : Env} {flIdx : UInt8} {e : DbFlEntry} {i : Nat} {row : TableRow}
    (h : (e.rows env flIdx)[i]? = some row) :
    (∃ s, e.staticEntries[i]? = some s ∧ row = ⟨s.name, s.type, .fl flIdx (UInt8.ofNat i) false⟩) ∨
      (e.staticEntries.length ≤ i ∧ ∃ d, e.dynamicEntries[i - e.staticEntries.length]? = some d ∧
        row = ⟨d.getNodeFn.nodeName, .inner, d.getNodeFn.node env⟩) := by
  rw [DbFlEntry.rows, List.getElem?_append, List.length_mapIdx] at h
  split at h
  · rw [List.getElem?_mapIdx, Option.map_eq_some_iff] at h
    obtain ⟨s, hs, rfl⟩ := h
    exact Or.inl ⟨s, hs, rfl⟩
  · next hlt =>
    rw [List.getElem?_map, Option.map_eq_some_iff] at h
    obtain ⟨d, hd, rfl⟩ := h
    exact Or.inr ⟨Nat.le_of_not_lt hlt, d, hd, rfl⟩

/-- The shared variables after the constructor of a node has run. -/
def DbNode.constructed (g : Globals) : DbNode → Globals
  | .netif _ .root => { g with netifFieldCount := 0, netifSubFieldCount := 1 }
  | _ => g

theorem GetNodeFn.call_eq (env : Env) (g : Globals) (f : GetNodeFn) :
    f.call env g = ((f.node env).constructed g, f.node env) := by
  cases f <;> rfl

/-- **The child at position `k` of a folder is its row `k`.** -/
theorem getNextChild_row_eq {node : DbNode} (hn : TableNode db node) {k : UInt8} {row : TableRow}
    (h : (tableRows db node)[k.toNat]? = some row) (g : Globals) (c : DbNode) :
    dbNodeGetNextChild db ⟨g, node.withPos k, c⟩
      = .ok ⟨row.node.constructed g, node.withPos (k + 1), row.node⟩ := by
  cases hn with
  | root idx =>
    rw [tableRows, List.getElem?_mapIdx, Option.map_eq_some_iff] at h
    obtain ⟨e, he, rfl⟩ := h
    have hlt : k.toNat < db.dbIndex.length := (List.getElem?_eq_some_iff.mp he).1
    simp [DbNode.withPos, DbNode.constructed, dbNodeGetNextChild, rootGetNextChild, hlt,
      dbNewFlNode, flNodeInit]
  | branch subIdx he =>
    rename_i flIdx e
    simp only [tableRows, he] at h
    rcases rows_getElem? h with ⟨s, hs, rfl⟩ | ⟨hle, d, hd, rfl⟩
    · have hlt : k.toNat < e.staticEntries.length := (List.getElem?_eq_some_iff.mp hs).1
      simp [DbNode.withPos, DbNode.constructed, dbNodeGetNextChild, flNodeGetnextChild,
        flEntry_eq he, hlt, flNodeInit]
    · simp [DbNode.withPos, dbNodeGetNextChild, flNodeGetnextChild, flEntry_eq he,
        Nat.not_lt.mpr hle, hd, d.getNodeFn.call_eq db.env g]
  | static he hs => simp [tableRows] at h

theorem getNextChild_row {node : DbNode} (hn : TableNode db node) {k : UInt8} {row : TableRow}
    (h : (tableRows db node)[k.toNat]? = some row) (g : Globals) (c : DbNode) :
    ∃ g', dbNodeGetNextChild db ⟨g, node.withPos k, c⟩
      = .ok ⟨g', node.withPos (k + 1), row.node⟩ :=
  ⟨_, getNextChild_row_eq hn h g c⟩

/-- Behind its last row a folder has no children. -/
theorem getNextChild_end {node : DbNode} (hn : TableNode db node) {k : UInt8}
    (h : (tableRows db node).length ≤ k.toNat) (g : Globals) (c : DbNode) :
    dbNodeGetNextChild db ⟨g, node.withPos k, c⟩ = .ok ⟨g, node.withPos k, .null⟩ := by
  cases hn with
  | root idx =>
    rw [tableRows, List.length_mapIdx] at h
    simp [DbNode.withPos, dbNodeGetNextChild, rootGetNextChild, Nat.not_lt.mpr h]
  | branch subIdx he =>
    rename_i flIdx e
    simp only [tableRows, he, DbFlEntry.rows, List.length_append, List.length_mapIdx,
      List.length_map] at h
    have hs : ¬ k.toNat < e.staticEntries.length := by omega
    have hd : e.dynamicEntries[k.toNat - e.staticEntries.length]? = none := by
      rw [List.getElem?_eq_none_iff]
      omega
    simp [DbNode.withPos, dbNodeGetNextChild, flNodeGetnextChild, flEntry_eq he, hs, hd]
  | static he hs =>
    simp [DbNode.withPos, dbNodeGetNextChild, flNodeGetnextChild, flEntry_eq he]

/-- The children of a folder of the tables are nodes of the tables or roots of dynamic entries. -/
theorem row_node {node : DbNode} (hn : TableNode db node) {k : UInt8} {row : TableRow}
    (h : (tableRows db node)[k.toNat]? = some row) : TableChild db row.node := by
  cases hn with
  | root idx =>
    rw [tableRows, List.getElem?_mapIdx, Option.map_eq_some_iff] at h
    obtain ⟨e, he, rfl⟩ := h
    exact .table (.branch 0 (by simpa using he)) rfl
  | branch subIdx he =>
    simp only [tableRows, he] at h
    rcases rows_getElem? h with ⟨s, hs, rfl⟩ | ⟨-, d, -, rfl⟩
    · exact .table (.static he (by simpa using hs)) rfl
    · exact .dynamic d.getNodeFn
  | static he hs => simp [tableRows] at h

/-- A child reports the type of its row. -/
theorem row_type {node : DbNode} (hn : TableNode db node) {k : UInt8} {row : TableRow}
    (h : (tableRows db node)[k.toNat]? = some row) (g : Globals) :
    dbNodeGetType db g row.node = .ok row.type := by
  cases hn with
  | root idx =>
    rw [tableRows, List.getElem?_mapIdx, Option.map_eq_some_iff] at h
    obtain ⟨e, he, rfl⟩ := h
    rfl
  | branch subIdx he =>
    simp only [tableRows, he] at h
    rcases rows_getElem? h with ⟨s, hs, rfl⟩ | ⟨-, d, -, rfl⟩
    · simp [dbNodeGetType, flNodeGettype, flEntry_eq he, staticEntry, hs]
    · cases d.getNodeFn <;> rfl
  | static he hs => simp [tableRows] at h

/-- A child reports the name of its row. -/
theorem row_name {node : DbNode} (hn : TableNode db node) {k : UInt8} {row : TableRow}
    (h : (tableRows db node)[k.toNat]? = some row) (g : Globals) (b : NameBuf) :
    dbNodeGetName db g row.node b = .ok (b.strncpy row.name.toCString) := by
  cases hn with
  | root idx =>
    rw [tableRows, List.getElem?_mapIdx, Option.map_eq_some_iff] at h
    obtain ⟨e, he, rfl⟩ := h
    have he' : flEntry db k = .ok e := flEntry_eq he
    simp [dbNewFlNode, flNodeInit, dbNodeGetName, flNodeGetname, he']
  | branch subIdx he =>
    simp only [tableRows, he] at h
    rcases rows_getElem? h with ⟨s, hs, rfl⟩ | ⟨-, d, -, rfl⟩
    · simp [dbNodeGetName, flNodeGetname, flEntry_eq he, staticEntry, hs]
    · cases d.getNodeFn <;> rfl
  | static he hs => simp [tableRows] at h

/-! ## The scan of the names -/

/-- How a scan of the rows ends without a node. -/
inductive TableStop where
  /-- No name begins with the component. -/
  | refused
  /-- The component goes on behind a name that fills the name buffer. -/
  | overrun
  /-- None of the 256 positions has a name that begins with the component. -/
  | endless
  /-- The component belongs to a level below a dynamic entry. -/
  | below
  deriving DecidableEq

/-- What a row says about a component, unless the search goes on. -/
def TableRow.verdict (row : TableRow) (comp : List Char) : Option (Except TableStop DbNode) :=
  if row.type = .null then some (.error .refused)
  else if comp <+: row.name.chars then some (.ok row.node)
  else if Buf.Overruns dbNodeNameMax row.name.chars comp then some (.error .overrun)
  else none

/-- The verdict of the first row that has one. `onEnd` is what the end of the rows means. -/
def scanRows (comp : List Char) (onEnd : TableStop) (rows : List TableRow) :
    Except TableStop DbNode :=
  (rows.findSome? (·.verdict comp)).getD (.error onEnd)

/-- What the end of `n` rows means: the position is a byte. -/
def endOfRows (n : Nat) : TableStop := if n < 256 then .refused else .endless

variable (db)

/-- What a component leads to from a node of the tables. -/
def tableStep (node : DbNode) (comp : List Char) : Except TableStop DbNode :=
  match node with
  | .root _ | .fl _ _ _ =>
    scanRows comp (endOfRows (tableRows db node).length) ((tableRows db node).take 256)
  | _ => .error .below

variable {db}

theorem TableNode.tableStep_eq {node : DbNode} (hn : TableNode db node) (comp : List Char) :
    tableStep db node comp
      = scanRows comp (endOfRows (tableRows db node).length) ((tableRows db node).take 256) := by
  cases hn <;> rfl

/-! ## The search follows the scan -/

/-- A result of the code that the scan allows. -/
inductive Follows : Except TableStop DbNode → Except Stop Descent → Prop where
  | reached (g : Globals) (node : DbNode) (nameBuf : NameBuf) :
      Follows (.ok node) (.ok ⟨g, node, nameBuf⟩)
  | refused (g : Globals) (node : DbNode) : Follows (.error .refused) (.error (.notFound g node))
  | overrun : Follows (.error .overrun) (.error (.trap .bounds))
  | endless : Follows (.error .endless) (.error (.trap .fuel))

variable (db) in
/-- The search among the children of a folder, from position `k` on. -/
def searchFrom (comp : List Char) (fuel : Nat) (node : DbNode) (k : UInt8) (g : Globals)
    (c : DbNode) (b : NameBuf) : Except Stop Descent :=
  searchOutcome (searchChild db comp fuel ⟨⟨g, node.withPos k, c⟩, b⟩)

theorem dbNodeIsNull_eq {g : Globals} {node : DbNode} {type : DbNodeType}
    (h : dbNodeGetType db g node = .ok type) :
    dbNodeIsNull db g node = .ok (decide (type = .null)) := by
  rw [dbNodeIsNull, h]
  rfl

/-- **The search ends at a row that has a verdict.** -/
theorem searchFrom_verdict {node : DbNode} (hn : TableNode db node) {k : UInt8} {row : TableRow}
    (h : (tableRows db node)[k.toNat]? = some row) {comp : List Char} (hcomp : nul ∉ comp)
    {r : Except TableStop DbNode} (hv : row.verdict comp = some r) (fuel : Nat) (g : Globals)
    (c : DbNode) (b : NameBuf) :
    Follows r (searchFrom db comp (fuel + 1) node k g c b) := by
  obtain ⟨g', hnext⟩ := getNextChild_row hn h g c
  have hnull := dbNodeIsNull_eq (row_type hn h g')
  have hname := row_name hn h g' b
  have hcmp := Buf.memcmp_strncpyBytes row.name.fits hcomp
  unfold TableRow.verdict at hv
  -- a row has a verdict when its type ends the search, when its name begins with the component, or
  -- when `memcmp` reads past the name buffer
  split_ifs at hv with ht hp ho
  · have hs : searchFrom db comp (fuel + 1) node k g c b
        = .error (.notFound g' (node.withPos (k + 1))) := by
      simp [searchFrom, searchChild, hnext, hnull, ht, searchOutcome]
    obtain rfl := Option.some.inj hv
    rw [hs]
    exact .refused _ _
  · rw [if_pos hp] at hcmp
    have hs : searchFrom db comp (fuel + 1) node k g c b
        = .ok ⟨g', row.node, b.strncpy row.name.toCString⟩ := by
      simp [searchFrom, searchChild, hnext, hnull, ht, hname, Buf.strncpy, hcmp, searchOutcome,
        inBounds]
    obtain rfl := Option.some.inj hv
    rw [hs]
    exact .reached _ _ _
  · rw [if_neg hp, if_pos ho] at hcmp
    have hs : searchFrom db comp (fuel + 1) node k g c b = .error (.trap .bounds) := by
      simp [searchFrom, searchChild, hnext, hnull, ht, hname, Buf.strncpy, hcmp, searchOutcome,
        inBounds]
    obtain rfl := Option.some.inj hv
    rw [hs]
    exact .overrun

/-- **The search goes on behind a row that has none.** -/
theorem searchFrom_skip {node : DbNode} (hn : TableNode db node) {k : UInt8} {row : TableRow}
    (h : (tableRows db node)[k.toNat]? = some row) {comp : List Char} (hcomp : nul ∉ comp)
    (hv : row.verdict comp = none) (fuel : Nat) (g : Globals) (c : DbNode) (b : NameBuf) :
    ∃ g' c' b', searchFrom db comp (fuel + 1) node k g c b
      = searchFrom db comp fuel node (k + 1) g' c' b' := by
  obtain ⟨g', hnext⟩ := getNextChild_row hn h g c
  have hnull := dbNodeIsNull_eq (row_type hn h g')
  have hname := row_name hn h g' b
  have hcmp := Buf.memcmp_strncpyBytes row.name.fits hcomp
  unfold TableRow.verdict at hv
  split_ifs at hv with ht hp ho
  rw [if_neg hp, if_neg ho] at hcmp
  refine ⟨g', row.node, b.strncpy row.name.toCString, ?_⟩
  simp [searchFrom, searchChild, hnext, hnull, ht, hname, Buf.strncpy, hcmp, inBounds]

theorem searchFrom_end {node : DbNode} (hn : TableNode db node) {k : UInt8}
    (h : (tableRows db node).length ≤ k.toNat) (comp : List Char) (fuel : Nat) (g : Globals)
    (c : DbNode) (b : NameBuf) :
    Follows (.error .refused) (searchFrom db comp (fuel + 1) node k g c b) := by
  have hs : searchFrom db comp (fuel + 1) node k g c b
      = .error (.notFound g (node.withPos k)) := by
    simp [searchFrom, searchChild, getNextChild_end hn h, dbNodeIsNull, dbNodeGetType,
      searchOutcome]
  rw [hs]
  exact .refused _ _

/-- The row at a position, as the front of what is left of the table. -/
theorem row_of_drop {rows : List TableRow} {all : List TableRow} {k : UInt8} {row : TableRow}
    (h : (all.take 256).drop k.toNat = row :: rows) : all[k.toNat]? = some row := by
  have h' : ((all.take 256).drop k.toNat)[0]? = some row := by
    rw [h]
    rfl
  rw [List.getElem?_drop, Nat.add_zero, List.getElem?_take_of_lt k.toNat_lt] at h'
  exact h'

/-- The position does not wrap around before the last of the 256 rows. -/
theorem drop_succ {rows : List TableRow} {all : List TableRow} {k : UInt8} {row : TableRow}
    (h : (all.take 256).drop k.toNat = row :: rows) :
    (all.take 256).drop (k + 1).toNat = rows ∨ (rows = [] ∧ 256 ≤ all.length) := by
  have hk := k.toNat_lt
  rcases Nat.lt_or_ge (k.toNat + 1) 256 with hlt | hge
  · have hk' : (k + 1).toNat = k.toNat + 1 := by
      rw [UInt8.toNat_add]
      exact Nat.mod_eq_of_lt hlt
    left
    rw [hk', ← List.drop_drop, h]
    rfl
  · right
    have hlen := congrArg List.length h
    rw [List.length_drop, List.length_take, List.length_cons] at hlen
    exact ⟨List.eq_nil_of_length_eq_zero (by omega), by omega⟩

/--
A scan that comes to an end within the 256 positions is what the search does, provided that there
is enough fuel for the rows.
-/
theorem searchFrom_scanRows {node : DbNode} (hn : TableNode db node) {comp : List Char}
    (hcomp : nul ∉ comp) {rows : List TableRow} {k : UInt8} {onEnd : TableStop}
    (hrows : ((tableRows db node).take 256).drop k.toNat = rows)
    (hend : onEnd = endOfRows (tableRows db node).length)
    (hscan : scanRows comp onEnd rows ≠ .error .endless) (fuel : Nat) (g : Globals) (c : DbNode)
    (b : NameBuf) :
    Follows (scanRows comp onEnd rows) (searchFrom db comp fuel node k g c b) ∨
      (fuel ≤ rows.length ∧ searchFrom db comp fuel node k g c b = .error (.trap .fuel)) := by
  induction rows generalizing k fuel g c b with
  | nil =>
    cases fuel with
    | zero => exact Or.inr ⟨Nat.zero_le _, rfl⟩
    | succ fuel =>
      -- the position is behind the last row, since it is a byte
      have hk := k.toNat_lt
      have hlen : (tableRows db node).length ≤ k.toNat := by
        have h := List.drop_eq_nil_iff.mp hrows
        rw [List.length_take] at h
        omega
      have hr : onEnd = .refused := by
        rw [hend, endOfRows, if_pos (by omega)]
      rw [hr]
      exact Or.inl (searchFrom_end hn hlen comp fuel g c b)
  | cons row rows ih =>
    cases fuel with
    | zero => exact Or.inr ⟨Nat.zero_le _, rfl⟩
    | succ fuel =>
      have hrow := row_of_drop hrows
      unfold scanRows at hscan ih ⊢
      rw [List.findSome?_cons] at hscan ⊢
      cases hv : row.verdict comp with
      | some r =>
        exact Or.inl (searchFrom_verdict hn hrow hcomp hv fuel g c b)
      | none =>
        rw [hv] at hscan
        obtain ⟨g', c', b', hs⟩ := searchFrom_skip hn hrow hcomp hv fuel g c b
        rw [hs]
        rcases drop_succ hrows with hnext | ⟨rfl, hlen⟩
        · rcases ih hnext hscan fuel g' c' b' with hf | ⟨hle, hfuel⟩
          · exact Or.inl hf
          · exact Or.inr ⟨by rw [List.length_cons]; omega, hfuel⟩
        · rw [hend, endOfRows, if_neg (by omega)] at hscan
          exact absurd rfl hscan

/-- Where no row has a verdict and the position never gets behind the rows, the search goes on. -/
theorem searchFrom_endless {node : DbNode} (hn : TableNode db node) {comp : List Char}
    (hcomp : nul ∉ comp) (hlen : 256 ≤ (tableRows db node).length)
    (hv : ∀ row ∈ (tableRows db node).take 256, row.verdict comp = none) (fuel : Nat) (k : UInt8)
    (g : Globals) (c : DbNode) (b : NameBuf) :
    searchFrom db comp fuel node k g c b = .error (.trap .fuel) := by
  induction fuel generalizing k g c b with
  | zero => rfl
  | succ fuel ih =>
    have hk := k.toNat_lt
    have hlt : k.toNat < (tableRows db node).length := by omega
    have hrow := List.getElem?_eq_getElem hlt
    have hmem : (tableRows db node)[k.toNat] ∈ (tableRows db node).take 256 :=
      List.mem_take_iff_getElem.mpr ⟨k.toNat, by omega, rfl⟩
    obtain ⟨g', c', b', hs⟩ := searchFrom_skip hn hrow hcomp (hv _ hmem) fuel g c b
    rw [hs]
    exact ih (k + 1) g' c' b'

theorem scanRows_eq_endless {comp : List Char} {n : Nat} {rows : List TableRow}
    (h : scanRows comp (endOfRows n) rows = .error .endless) :
    256 ≤ n ∧ ∀ row ∈ rows, row.verdict comp = none := by
  unfold scanRows at h
  cases hf : rows.findSome? (·.verdict comp) with
  | some r =>
    rw [hf] at h
    obtain rfl : r = .error .endless := h
    obtain ⟨row, -, hv⟩ := List.exists_of_findSome?_eq_some hf
    unfold TableRow.verdict at hv
    split_ifs at hv <;> simp at hv
  | none =>
    rw [hf] at h
    unfold endOfRows at h
    split_ifs at h with hn
    · simp at h
    · exact ⟨Nat.not_lt.mp hn, List.findSome?_eq_none_iff.mp hf⟩

/-! ## A descent follows the scan -/

/-- A row with a verdict for a node is the row of that node. -/
theorem scanRows_eq_ok {comp : List Char} {onEnd : TableStop} {rows : List TableRow}
    {node : DbNode} (h : scanRows comp onEnd rows = .ok node) : ∃ row ∈ rows, row.node = node := by
  unfold scanRows at h
  cases hf : rows.findSome? (·.verdict comp) with
  | none =>
    rw [hf] at h
    simp at h
  | some r =>
    rw [hf] at h
    obtain rfl : r = .ok node := h
    obtain ⟨row, hrow, hv⟩ := List.exists_of_findSome?_eq_some hf
    unfold TableRow.verdict at hv
    split_ifs at hv
    · simp at hv
    · exact ⟨row, hrow, by simpa using hv⟩
    · simp at hv

theorem tableStep_child {node child : DbNode} (hn : TableNode db node) {comp : List Char}
    (h : tableStep db node comp = .ok child) : TableChild db child := by
  rw [hn.tableStep_eq] at h
  obtain ⟨row, hrow, rfl⟩ := scanRows_eq_ok h
  obtain ⟨i, hi, hget⟩ := List.mem_take_iff_getElem.mp hrow
  have hk : (UInt8.ofNat i).toNat = i := by
    rw [UInt8.toNat_ofNat']
    exact Nat.mod_eq_of_lt (by omega)
  exact row_node hn (k := UInt8.ofNat i) (by
    rw [hk, ← hget]
    exact List.getElem?_eq_getElem _)

/-- **A descent by one component follows the scan of the rows.** -/
theorem descend_tableStep {node : DbNode} (hn : TableNode db node) (hpos : node.withPos 0 = node)
    {comp : List Char} (hcomp : nul ∉ comp) (fuel : Nat) (g : Globals) (b : NameBuf) :
    Follows (tableStep db node comp) (descend db fuel ⟨g, node, b⟩ comp) ∨
      (fuel ≤ 256 ∧ descend db fuel ⟨g, node, b⟩ comp = .error (.trap .fuel)) := by
  have hsearch : descend db fuel ⟨g, node, b⟩ comp = searchFrom db comp fuel node 0 g node b := by
    rw [searchFrom, hpos]
    rfl
  rw [hn.tableStep_eq, hsearch]
  by_cases hend : scanRows comp (endOfRows (tableRows db node).length)
      ((tableRows db node).take 256) = .error .endless
  · obtain ⟨hlen, hv⟩ := scanRows_eq_endless hend
    rw [hend, searchFrom_endless hn hcomp hlen hv]
    exact Or.inl .endless
  · have hrows : ((tableRows db node).take 256).drop (0 : UInt8).toNat
        = (tableRows db node).take 256 := rfl
    rcases searchFrom_scanRows hn hcomp hrows rfl hend fuel g node b with hf | ⟨hle, hfuel⟩
    · exact Or.inl hf
    · rw [List.length_take] at hle
      exact Or.inr ⟨by omega, hfuel⟩

theorem nul_not_mem_component {path : CString} {comp : List Char}
    (h : comp ∈ pathComponents path) : nul ∉ comp :=
  fun hnul => path.noNul (subset_of_mem_components '/' h hnul)

end Dca
