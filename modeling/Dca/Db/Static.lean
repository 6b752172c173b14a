import Dca.Db.Names

/-!
# Every static entry has its path

Among names of which none begins another, the first name that begins with a component is the
component itself. So a lookup by full names skips the rows in front of the one it is for, and as
long as it only skips branches and static entries it leaves the shared variables alone
(`descend_row`). From this follows which static entries a table makes reachable: all those that do
not stand at or behind an entry of type null, which ends the list of children
(`static_found_by_path`).
-/

namespace Dca

open CLib

variable {db : Db}

/-! ## Names of siblings -/

/-- Names that a lookup can tell apart among siblings. -/
structure SiblingNames (names : List (List Char)) : Prop where
  ne_nil : ∀ w ∈ names, w ≠ []
  noSlash : ∀ w ∈ names, '/' ∉ w
  short : ∀ w ∈ names, w.length < dbNodeNameMax
  prefixFree : names.Pairwise fun v w => ¬ v <+: w ∧ ¬ w <+: v

instance (names : List (List Char)) : Decidable (SiblingNames names) :=
  decidable_of_iff ((∀ w ∈ names, w ≠ []) ∧ (∀ w ∈ names, '/' ∉ w) ∧
      (∀ w ∈ names, w.length < dbNodeNameMax) ∧ names.Pairwise fun v w => ¬ v <+: w ∧ ¬ w <+: v)
    ⟨fun h => ⟨h.1, h.2.1, h.2.2.1, h.2.2.2⟩, fun h => ⟨h.1, h.2, h.3, h.4⟩⟩

theorem SiblingNames.nil : SiblingNames [] := ⟨by simp, by simp, by simp, .nil⟩

theorem SiblingNames.not_begins {names : List (List Char)} (h : SiblingNames names) {i j : Nat}
    {v w : List Char} (hi : names[i]? = some v) (hj : names[j]? = some w) (hne : i ≠ j) :
    ¬ v <+: w := by
  obtain ⟨hi', rfl⟩ := List.getElem?_eq_some_iff.mp hi
  obtain ⟨hj', rfl⟩ := List.getElem?_eq_some_iff.mp hj
  rcases Nat.lt_or_gt_of_ne hne with hlt | hgt
  · exact (List.pairwise_iff_getElem.mp h.prefixFree i j hi' hj' hlt).1
  · exact (List.pairwise_iff_getElem.mp h.prefixFree j i hj' hi' hgt).2

/-! ## The row of a full name -/

theorem toNat_ofNat {i : Nat} (hi : i < 256) : (UInt8.ofNat i).toNat = i := by
  rw [UInt8.toNat_ofNat']
  exact Nat.mod_eq_of_lt hi

theorem uint8_add_one {x : UInt8} (h : x.toNat < 255) : (x + 1).toNat = x.toNat + 1 := by
  rw [UInt8.toNat_add, show (1 : UInt8).toNat = 1 from rfl, Nat.mod_eq_of_lt (by omega)]

theorem TableRow.verdict_self {row : TableRow} (ht : row.type ≠ .null) :
    row.verdict row.name.chars = some (.ok row.node) := by
  rw [TableRow.verdict, if_neg ht, if_pos (List.prefix_refl _)]

theorem TableRow.verdict_other {row : TableRow} {comp : List Char} (ht : row.type ≠ .null)
    (hshort : row.name.chars.length < dbNodeNameMax) (hp : ¬ comp <+: row.name.chars) :
    row.verdict comp = none := by
  rw [TableRow.verdict, if_neg ht, if_neg hp, if_neg]
  rintro ⟨hfull, -⟩
  omega

/-- A row that a search leaves behind without a trace. -/
structure TableRow.Skipped (row : TableRow) (comp : List Char) : Prop where
  verdict : row.verdict comp = none
  constructed : ∀ g, row.node.constructed g = g

/-- **A search that skips the rows from `k` on reaches row `i`.** -/
theorem searchFrom_row {node : DbNode} (hn : TableNode db node) {comp : List Char}
    (hcomp : nul ∉ comp) {i : Nat} {row : TableRow} (hi : i < 256)
    (hrow : (tableRows db node)[i]? = some row) (hv : row.verdict comp = some (.ok row.node))
    (hskip : ∀ j r, j < i → (tableRows db node)[j]? = some r → r.Skipped comp) (n : Nat) {k : UInt8}
    (hk : k.toNat + n = i) {fuel : Nat} (hfuel : n < fuel) (g : Globals) (c : DbNode)
    (b : NameBuf) :
    ∃ b', searchFrom db comp fuel node k g c b = .ok ⟨row.node.constructed g, row.node, b'⟩ := by
  induction n generalizing k fuel g c b with
  | zero =>
    cases fuel with
    | zero => omega
    | succ fuel =>
      rw [Nat.add_zero] at hk
      subst hk
      have hnext := getNextChild_row_eq hn hrow g c
      have hnull := dbNodeIsNull_eq (row_type hn hrow (row.node.constructed g))
      have hname := row_name hn hrow (row.node.constructed g) b
      have hcmp := Buf.memcmp_strncpyBytes row.name.fits hcomp
      refine ⟨b.strncpy row.name.toCString, ?_⟩
      unfold TableRow.verdict at hv
      split_ifs at hv with ht hp ho
      · simp at hv
      · rw [if_pos hp] at hcmp
        simp [searchFrom, searchChild, hnext, hnull, ht, hname, Buf.strncpy, hcmp, searchOutcome,
          inBounds]
      · simp at hv
  | succ n ih =>
    cases fuel with
    | zero => omega
    | succ fuel =>
      have hlt : k.toNat < (tableRows db node).length := by
        have := (List.getElem?_eq_some_iff.mp hrow).1
        omega
      obtain ⟨hnone, hconstructed⟩ := hskip k.toNat _ (by omega) (List.getElem?_eq_getElem hlt)
      have hgetk := List.getElem?_eq_getElem hlt
      generalize (tableRows db node)[k.toNat] = r at hnone hconstructed hgetk
      have hnext := getNextChild_row_eq hn hgetk g c
      rw [hconstructed] at hnext
      have hnull := dbNodeIsNull_eq (row_type hn hgetk g)
      have hname := row_name hn hgetk g b
      have hcmp := Buf.memcmp_strncpyBytes r.name.fits hcomp
      unfold TableRow.verdict at hnone
      split_ifs at hnone with ht hp ho
      rw [if_neg hp, if_neg ho] at hcmp
      have hstep : searchFrom db comp (fuel + 1) node k g c b
          = searchFrom db comp fuel node (k + 1) g r.node (b.strncpy r.name.toCString) := by
        simp [searchFrom, searchChild, hnext, hnull, ht, hname, Buf.strncpy, hcmp, inBounds]
      have hk' : (k + 1).toNat + n = i := by
        rw [uint8_add_one (by omega)]
        omega
      rw [hstep]
      exact ih hk' (by omega) g _ _

/-- **A descent into the row of a full name.** -/
theorem descend_row {node : DbNode} (hn : TableNode db node) (hpos : node.withPos 0 = node)
    {comp : List Char} (hcomp : nul ∉ comp) {i : Nat} {row : TableRow} (hi : i < 256)
    (hrow : (tableRows db node)[i]? = some row) (hv : row.verdict comp = some (.ok row.node))
    (hskip : ∀ j r, j < i → (tableRows db node)[j]? = some r → r.Skipped comp) {fuel : Nat}
    (hfuel : i < fuel) (g : Globals) (b : NameBuf) :
    ∃ b', descend db fuel ⟨g, node, b⟩ comp
      = .ok ⟨row.node.constructed g, row.node, b'⟩ := by
  have hsearch : descend db fuel ⟨g, node, b⟩ comp = searchFrom db comp fuel node 0 g node b := by
    rw [searchFrom, hpos]
    rfl
  rw [hsearch]
  have hk : (0 : UInt8).toNat + i = i := Nat.zero_add i
  exact searchFrom_row hn hcomp hi hrow hv hskip i hk hfuel g node b

/-! ## Tables with paths -/

/-- A table in which names tell the branches apart, and the static entries of each branch. -/
structure PathTable (db : Db) : Prop where
  branches : db.dbIndex.length ≤ 255
  entries : ∀ e ∈ db.dbIndex, e.staticEntries.length ≤ 255
  branchNames : SiblingNames (db.dbIndex.map fun e => e.branchName.chars)
  entryNames : ∀ e ∈ db.dbIndex, SiblingNames (e.staticEntries.map fun s => s.name.chars)

variable (db) in
/-- Every path with these components yields the node and leaves the shared variables alone. -/
def FoundBy (comps : List (List Char)) (node : DbNode) : Prop :=
  ∀ (path : CString), pathComponents path = comps → ∀ (fuel : Nat), 256 ≤ fuel →
    ∀ (g : Globals) (child : DbNode) (nameBuf : NameBuf),
      dbFindNodeByPath db fuel g path child nameBuf = .ok ⟨g, 0, node⟩

variable (db) in
/-- The node has the type and the accessor of a static entry. -/
structure IsEntry (node : DbNode) (s : DbFlStaticEntry) : Prop where
  type : ∀ g, dbNodeGetType db g node = .ok s.type
  accessor : ∃ flIdx subIdx, node = .fl flIdx subIdx false ∧
    (do staticEntry (← flEntry db flIdx) subIdx) = .ok s

variable (db) in
/-- Static entry `j` of branch `i` is found under `b/e`. -/
def EntryFound (i j : Nat) (e : DbFlEntry) (s : DbFlStaticEntry) : Prop :=
  FoundBy db [e.branchName.chars, s.name.chars] (.fl (UInt8.ofNat i) (UInt8.ofNat j) false) ∧
    IsEntry db (.fl (UInt8.ofNat i) (UInt8.ofNat j) false) s

variable (db) in
/-- Every branch and every static entry is found under its path. -/
def StaticReachable : Prop :=
  ∀ i e, db.dbIndex[i]? = some e →
    FoundBy db [e.branchName.chars] (dbNewFlNode (UInt8.ofNat i)) ∧
      ∀ j s, e.staticEntries[j]? = some s → EntryFound db i j e s

theorem PathTable.lt_branches (h : PathTable db) {i : Nat} {e : DbFlEntry}
    (he : db.dbIndex[i]? = some e) : i < 255 := by
  have hlt := (List.getElem?_eq_some_iff.mp he).1
  have := h.branches
  omega

/-- **The first component takes a lookup into its branch.** -/
theorem PathTable.descend_branch (h : PathTable db) {i : Nat} {e : DbFlEntry}
    (he : db.dbIndex[i]? = some e) {fuel : Nat} (hfuel : 256 ≤ fuel) (g : Globals) (b : NameBuf) :
    ∃ b', descend db fuel ⟨g, dbGetRoot, b⟩ e.branchName.chars
      = .ok ⟨g, dbNewFlNode (UInt8.ofNat i), b'⟩ := by
  have hi := h.lt_branches he
  have hrows : ∀ j, (tableRows db dbGetRoot)[j]?
      = (db.dbIndex[j]?).map fun e =>
        (⟨e.branchName, .inner, dbNewFlNode (UInt8.ofNat j)⟩ : TableRow) := by
    intro j
    rw [dbGetRoot, tableRows, List.getElem?_mapIdx]
  have hrow := hrows i
  rw [he, Option.map_some] at hrow
  refine descend_row (.root 0) rfl e.branchName.noNul (by omega) hrow
    (TableRow.verdict_self (by simp)) ?_ (by omega) g b
  intro j r hj hr
  obtain ⟨e', he', rfl⟩ := Option.map_eq_some_iff.mp ((hrows j).symm.trans hr)
  have hnames : ∀ {k : Nat} {e : DbFlEntry}, db.dbIndex[k]? = some e →
      (db.dbIndex.map fun e => e.branchName.chars)[k]? = some e.branchName.chars := by
    intro k e hk
    rw [List.getElem?_map, hk]
    rfl
  refine ⟨TableRow.verdict_other (by simp) ?_ ?_, fun _ => rfl⟩
  · exact h.branchNames.short _ (List.mem_of_getElem? (hnames he'))
  · exact h.branchNames.not_begins (hnames he) (hnames he') (by omega)

/-- The rows of a fresh branch node begin with its static entries. -/
theorem tableRows_static {i : Nat} (hi : i < 256) {e : DbFlEntry} (he : db.dbIndex[i]? = some e)
    {j : Nat} {s : DbFlStaticEntry} (hs : e.staticEntries[j]? = some s) :
    (tableRows db (dbNewFlNode (UInt8.ofNat i)))[j]?
      = some ⟨s.name, s.type, .fl (UInt8.ofNat i) (UInt8.ofNat j) false⟩ := by
  have hbranch : db.dbIndex[(UInt8.ofNat i).toNat]? = some e := by
    rw [toNat_ofNat hi]
    exact he
  have hlt : j < e.staticEntries.length := (List.getElem?_eq_some_iff.mp hs).1
  simp only [dbNewFlNode, flNodeInit, tableRows, hbranch, DbFlEntry.rows]
  rw [List.getElem?_append_left (by rw [List.length_mapIdx]; exact hlt), List.getElem?_mapIdx, hs]
  rfl

/-- **The second component takes a lookup to its static entry**, unless there is an entry of type
null on the way. -/
theorem PathTable.descend_entry (h : PathTable db) {i j : Nat} {e : DbFlEntry}
    {s : DbFlStaticEntry} (he : db.dbIndex[i]? = some e) (hs : e.staticEntries[j]? = some s)
    (htypes : ∀ s' ∈ e.staticEntries.take (j + 1), s'.type ≠ .null) {fuel : Nat}
    (hfuel : 256 ≤ fuel) (g : Globals) (b : NameBuf) :
    ∃ b', descend db fuel ⟨g, dbNewFlNode (UInt8.ofNat i), b⟩ s.name.chars
      = .ok ⟨g, .fl (UInt8.ofNat i) (UInt8.ofNat j) false, b'⟩ := by
  have hi := h.lt_branches he
  have hmem : e ∈ db.dbIndex := List.mem_of_getElem? he
  have hj : j < 255 := by
    have hlt := (List.getElem?_eq_some_iff.mp hs).1
    have := h.entries e hmem
    omega
  have hn : TableNode db (dbNewFlNode (UInt8.ofNat i)) := by
    refine .branch (e := e) 0 ?_
    rw [toNat_ofNat (by omega)]
    exact he
  have hnotNull : ∀ {k : Nat} {s' : DbFlStaticEntry}, k ≤ j → e.staticEntries[k]? = some s' →
      s'.type ≠ .null := by
    intro k s' hk hs'
    refine htypes s' (List.mem_of_getElem? (i := k) ?_)
    rw [List.getElem?_take_of_lt (by omega)]
    exact hs'
  have hnames : ∀ {k : Nat} {s' : DbFlStaticEntry}, e.staticEntries[k]? = some s' →
      (e.staticEntries.map fun s => s.name.chars)[k]? = some s'.name.chars := by
    intro k s' hk
    rw [List.getElem?_map, hk]
    rfl
  refine descend_row hn rfl s.name.noNul (by omega) (tableRows_static (by omega) he hs)
    (TableRow.verdict_self (hnotNull (Nat.le_refl j) hs)) ?_ (by omega) g b
  intro k r hk hr
  have hlt : k < e.staticEntries.length := by
    have := (List.getElem?_eq_some_iff.mp hs).1
    omega
  have hsk := List.getElem?_eq_getElem hlt
  rw [tableRows_static (by omega) he hsk] at hr
  obtain rfl := Option.some.inj hr
  refine ⟨TableRow.verdict_other (hnotNull (Nat.le_of_lt hk) hsk) ?_ ?_, fun _ => rfl⟩
  · exact (h.entryNames e hmem).short _ (List.mem_of_getElem? (hnames hsk))
  · exact (h.entryNames e hmem).not_begins (hnames hs) (hnames hsk) (by omega)

theorem staticEntry_eq {e : DbFlEntry} {s : DbFlStaticEntry} {subIdx : UInt8}
    (h : e.staticEntries[subIdx.toNat]? = some s) : staticEntry e subIdx = .ok s := by
  rw [staticEntry, h]

section Entry

variable {flIdx subIdx : UInt8} {e : DbFlEntry} {s : DbFlStaticEntry}
  (he : db.dbIndex[flIdx.toNat]? = some e) (hs : e.staticEntries[subIdx.toNat]? = some s)
include he hs

theorem static_type (g : Globals) : dbNodeGetType db g (.fl flIdx subIdx false) = .ok s.type := by
  simp [dbNodeGetType, flNodeGettype, flEntry_eq he, staticEntry_eq hs]

theorem static_int (htype : s.type = .int) {f : Env → Int} (hf : s.getValueFn = .int f)
    (g : Globals) : dbNodeGetIntValue db g (.fl flIdx subIdx false) = .ok (g, f db.env) := by
  have hread : flNodeGetintValue db flIdx subIdx = .ok (f db.env) := by
    simp only [flNodeGetintValue, flEntry_eq he, ok_bind, staticEntry_eq hs, hf, pure_eq_ok]
  simp only [dbNodeGetIntValue, static_type he hs, htype, ok_bind, decide_true, assert_true, hread,
    pure_eq_ok]

theorem static_str (htype : s.type = .str)
    {f : Env → (n : Nat) → Buf n → Nat → Res (Buf n × Nat)} (hf : s.getValueFn = .str f)
    (g : Globals) {n : Nat} (buf : Buf n) (bufsize : Nat) :
    dbNodeGetStrValue db g (.fl flIdx subIdx false) buf bufsize = f db.env n buf bufsize := by
  simp only [dbNodeGetStrValue, static_type he hs, htype, ok_bind, decide_true, assert_true,
    flNodeGetstrValue, flEntry_eq he, staticEntry_eq hs, hf]

end Entry

theorem isEntry_static {i j : Nat} (hi : i < 256) (hj : j < 256) {e : DbFlEntry}
    {s : DbFlStaticEntry} (he : db.dbIndex[i]? = some e) (hs : e.staticEntries[j]? = some s) :
    IsEntry db (.fl (UInt8.ofNat i) (UInt8.ofNat j) false) s := by
  rw [← toNat_ofNat hi] at he
  rw [← toNat_ofNat hj] at hs
  refine ⟨static_type he hs, _, _, rfl, ?_⟩
  simp [flEntry_eq he, staticEntry_eq hs]

/-- A branch with one entry of type null. -/
def nullEntryDb : Db where
  env := smallEnv
  dbIndex := [{
    branchName := boardEntry.branchName
    staticEntries := [⟨tableName "end", .null, .int fun _ => 0⟩]
    dynamicEntries := [] }]

/-- An entry of type null is not found: it ends the list of children. -/
theorem not_staticReachable_null : PathTable nullEntryDb ∧ ¬ StaticReachable nullEntryDb := by
  refine ⟨⟨by decide, by simp [nullEntryDb], by decide, ?_⟩, ?_⟩
  · intro e he
    obtain rfl := List.mem_singleton.mp he
    decide
  · intro h
    have hfound := (((h 0 _ rfl).2 0 _ rfl).1 (.lit "board/end") (by decide) 256 (Nat.le_refl _) {}
      .null (Buf.zero _))
    exact absurd hfound (by decide)

theorem PathTable.foundBy_entry (h : PathTable db) {i j : Nat} {e : DbFlEntry}
    {s : DbFlStaticEntry} (he : db.dbIndex[i]? = some e) (hs : e.staticEntries[j]? = some s)
    (htypes : ∀ s' ∈ e.staticEntries.take (j + 1), s'.type ≠ .null) :
    FoundBy db [e.branchName.chars, s.name.chars] (.fl (UInt8.ofNat i) (UInt8.ofNat j) false) := by
  intro path hpath fuel hfuel g child nameBuf
  obtain ⟨b, hb⟩ := h.descend_branch he hfuel g (Buf.zero _)
  obtain ⟨b', hb'⟩ := h.descend_entry he hs htypes hfuel g b
  rw [dbFindNodeByPath_eq_fold, hpath, List.foldlM_cons, Descent.start, hb, ok_bind,
    List.foldlM_cons, hb']
  rfl

/--
**Every branch is found under its name, and every static entry under `b/e`**, unless it stands at
or behind an entry of type null. The lookup neither reads nor writes the shared variables.
-/
theorem static_found_by_path (db : Db) (h : PathTable db) (i : Nat) (e : DbFlEntry)
    (he : db.dbIndex[i]? = some e) :
    FoundBy db [e.branchName.chars] (dbNewFlNode (UInt8.ofNat i)) ∧
      ∀ j s, e.staticEntries[j]? = some s →
        (∀ s' ∈ e.staticEntries.take (j + 1), s'.type ≠ .null) → EntryFound db i j e s := by
  have hi := h.lt_branches he
  refine ⟨?_, ?_⟩
  · intro path hpath fuel hfuel g child nameBuf
    obtain ⟨b, hb⟩ := h.descend_branch he hfuel g (Buf.zero _)
    rw [dbFindNodeByPath_eq_fold, hpath, List.foldlM_cons, Descent.start, hb]
    rfl
  · intro j s hs htypes
    have hj : j < 255 := by
      have hlt := (List.getElem?_eq_some_iff.mp hs).1
      have := h.entries e (List.mem_of_getElem? he)
      omega
    exact ⟨h.foundBy_entry he hs htypes, isEntry_static (by omega) (by omega) he hs⟩

/-- The branches of a build. -/
theorem mem_dbIndex {cfg : Config} {e : DbFlEntry} (he : e ∈ dbIndex cfg) :
    e = boardEntry ∨ e = runtimeEntry cfg ∨ e = networkEntry ∨ e = saulEntry := by
  simp only [dbIndex, List.mem_append] at he
  rcases he with (hfixed | hnetwork) | hsaul
  · simp only [List.mem_cons, List.not_mem_nil, or_false] at hfixed
    rcases hfixed with rfl | rfl <;> simp
  · split_ifs at hnetwork <;> simp_all
  · split_ifs at hsaul <;> simp_all

/-- The table of every build has paths. -/
theorem pathTable_ofEnv (cfg : Config) (env : Env) : PathTable (.ofEnv cfg env) := by
  refine ⟨?_, ?_, ?_, ?_⟩
  · obtain ⟨ps, network, saul⟩ := cfg
    cases network <;> cases saul <;> simp [Db.ofEnv, dbIndex]
  · intro e he
    rcases mem_dbIndex he with rfl | rfl | rfl | rfl <;>
      simp [boardEntry, runtimeEntry, networkEntry, saulEntry]
  · change SiblingNames ((dbIndex cfg).map fun e => e.branchName.chars)
    obtain ⟨ps, network, saul⟩ := cfg
    cases ps <;> cases network <;> cases saul <;> decide
  · intro e he
    rcases mem_dbIndex he with rfl | rfl | rfl | rfl
    · decide
    · change SiblingNames ((runtimeEntry {}).staticEntries.map fun s => s.name.chars)
      decide
    · decide
    · decide

theorem static_found_by_path_small :
    FoundBy smallDb ["board".toList] (dbNewFlNode 0) ∧
      EntryFound smallDb 0 0 boardEntry ⟨tableName "name", .str, .str boardGetName⟩ := by
  obtain ⟨hbranch, hentry⟩ :=
    static_found_by_path smallDb (pathTable_ofEnv {} smallEnv) 0 boardEntry rfl
  exact ⟨hbranch, hentry 0 _ rfl (by simp [boardEntry])⟩

end Dca
