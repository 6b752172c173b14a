import Dca.Db.Labels
import Dca.Db.Tour

/-!
# Lookups by whole names

A lookup takes the first child whose name begins with the component. Where no name of a sibling is
a beginning of another one, a whole name leads to its own child (`Lists.search`). `Lists` is proved
for the tables and for each family of nodes, and the rules of `Descends` put the levels together.
-/

namespace Dca

open CLib

/-! ## Paths -/

/-- A name that can stand between slashes. -/
def PathName (s : CString) : Prop := s.chars ≠ [] ∧ '/' ∉ s.chars

theorem SiblingNames.pathName {ι : Type} {name : ι → CString} {items : List ι}
    (h : SiblingNames (items.map fun i => (name i).chars)) {i : ι} (hi : i ∈ items) :
    PathName (name i) :=
  ⟨h.ne_nil _ (List.mem_map_of_mem hi), h.noSlash _ (List.mem_map_of_mem hi)⟩

theorem SiblingNames.length_lt {ι : Type} {name : ι → CString} {items : List ι}
    (h : SiblingNames (items.map fun i => (name i).chars)) {i : ι} (hi : i ∈ items) :
    (name i).length < dbNodeNameMax := h.short _ (List.mem_map_of_mem hi)

/-- The names with a slash in front of each. -/
def slashPath (names : List CString) : CString :=
  ⟨names.flatMap fun name => '/' :: name.chars, by
    intro h
    obtain ⟨name, -, hname⟩ := List.mem_flatMap.mp h
    rcases List.mem_cons.mp hname with hslash | hname
    · exact absurd hslash (by decide)
    · exact name.noNul hname⟩

theorem pathComponents_cons {name : CString} (hname : PathName name) (names : List CString) :
    pathComponents (slashPath (name :: names)) = name.chars :: pathComponents (slashPath names) := by
  unfold pathComponents slashPath
  dsimp only
  rw [List.flatMap_cons, List.cons_append, components_sep_cons]
  cases names with
  | nil =>
    rw [List.flatMap_nil, List.append_nil, components_of_not_mem hname.1 hname.2,
      components_nil]
  | cons next names =>
    rw [List.flatMap_cons, List.cons_append, components_append_sep hname.1 hname.2,
      components_sep_cons]

theorem pathComponents_slashPath {names : List CString} (h : ∀ name ∈ names, PathName name) :
    pathComponents (slashPath names) = names.map (·.chars) := by
  induction names with
  | nil => rfl
  | cons name names ih =>
    obtain ⟨hname, hnames⟩ := List.forall_mem_cons.mp h
    rw [pathComponents_cons hname, ih hnames, List.map_cons]

/-! ## The children in their order -/

variable (db : Db)

/-- The cursor has a child of this name. -/
structure Offers (c : Cursor) (name : CString) : Prop where
  notNull : dbNodeIsNull db c.g c.child = .ok false
  names : Names db c.g c.child name

/-- The children of a cursor, and what is known of the cursor at each of them. -/
inductive Lists {ι : Type} (name : ι → CString) (At : ι → Cursor → Prop) :
    Cursor → List ι → Prop where
  | nil {c : Cursor} : Lists name At c []
  | cons {c c₁ : Cursor} {i : ι} {items : List ι} (hnext : dbNodeGetNextChild db c = .ok c₁)
      (hchild : Offers db c₁ (name i)) (hat : At i c₁) (hrest : Lists name At c₁ items) :
      Lists name At c (i :: items)

variable {db}

/-- **A whole name leads to its own child.** -/
theorem Lists.search {ι : Type} {name : ι → CString} {At : ι → Cursor → Prop} {c : Cursor}
    {items : List ι} (h : Lists db name At c items)
    (hapart : (items.map fun i => (name i).chars).Pairwise fun v w => ¬ v <+: w ∧ ¬ w <+: v) {i : ι}
    (hi : i ∈ items) (nameBuf : NameBuf) {E : Trap → Prop} :
    Ends E (fun r : Bool × Search => r.1 = true ∧ At i r.2.cur)
      (fun fuel => searchChild db (name i).chars fuel ⟨c, nameBuf⟩) := by
  induction h generalizing nameBuf with
  | nil => cases hi
  | @cons c c₁ j items hnext hchild hat _ ih =>
    obtain ⟨b, hb, hs⟩ := hchild.names nameBuf
    have hcmp := hs.memcmp_eq (name i).noNul
    refine .succ ?_
    simp only [searchChild, hnext, ok_bind, hchild.notNull, Bool.false_eq_true, if_false, hb, hcmp,
      inBounds]
    rw [List.map_cons, List.pairwise_cons] at hapart
    rcases List.mem_cons.mp hi with rfl | hi
    · have hself : (name i).chars <+: (name i).chars := List.prefix_refl _
      simp only [hself, decide_true, if_true, pure_eq_ok]
      exact .const ⟨rfl, hat⟩
    · have hother : ¬ (name i).chars <+: (name j).chars :=
        (hapart.1 _ (List.mem_map_of_mem hi)).2
      simp only [hother, decide_false, Bool.false_eq_true, if_false]
      exact ih hapart.2 hi b

/-- Every child is there. -/
theorem Lists.exists_at {ι : Type} {name : ι → CString} {At : ι → Cursor → Prop} {c : Cursor}
    {items : List ι} (h : Lists db name At c items) {i : ι} (hi : i ∈ items) : ∃ c, At i c := by
  induction h with
  | nil => cases hi
  | cons hnext hchild hat _ ih =>
    rcases List.mem_cons.mp hi with rfl | hi
    · exact ⟨_, hat⟩
    · exact ih hi

/-! ## Level by level -/

/-- What the components lead to from a node. -/
def Descends (db : Db) (E : Stop → Prop) (P : Globals → DbNode → Prop) (comps : List (List Char))
    (g : Globals) (node : DbNode) : Prop :=
  ∀ nameBuf : NameBuf, Ends E (fun d : Descent => P d.g d.node)
    (fun fuel => comps.foldlM (descend db fuel) ⟨g, node, nameBuf⟩)

namespace Descends

variable {E : Stop → Prop} {P : Globals → DbNode → Prop} {comps : List (List Char)} {g : Globals}
  {node : DbNode}

theorem nil (h : P g node) : Descends db E P [] g node := fun _ => .const h

/-- One level. -/
theorem cons {ι : Type} {name : ι → CString} {At : ι → Cursor → Prop} {items : List ι}
    (h : Lists db name At ⟨g, node, node⟩ items)
    (hnames : SiblingNames (items.map fun i => (name i).chars)) {i : ι} (hi : i ∈ items)
    (hrest : ∀ c, At i c → Descends db E P comps c.g c.child) :
    Descends db E P ((name i).chars :: comps) g node := by
  intro nameBuf
  simp only [List.foldlM_cons]
  have hstep : Ends E (fun d : Descent => Descends db E P comps d.g d.node)
      (fun fuel => descend db fuel ⟨g, node, nameBuf⟩ (name i).chars) := by
    obtain ⟨r, hr, hout⟩ := h.search hnames.prefixFree hi nameBuf (E := fun _ => False)
    refine ⟨searchOutcome r, hr.mono fun n hn => congrArg searchOutcome hn, ?_⟩
    cases r with
    | error t => exact hout.elim
    | ok r =>
      obtain ⟨found, s⟩ := r
      obtain ⟨rfl, hat⟩ := hout
      exact hrest s.cur hat
  exact hstep.bind fun d hd => hd d.nameBuf

/-- A node without children. -/
theorem refused {c : Cursor} (hcomps : comps ≠ [])
    (hnext : dbNodeGetNextChild db ⟨g, node, node⟩ = .ok c) (hnull : c.child = .null)
    (hE : E (.notFound c.g c.node)) : Descends db E P comps g node := by
  intro nameBuf
  obtain ⟨comp, comps, rfl⟩ := List.exists_cons_of_ne_nil hcomps
  simp only [List.foldlM_cons]
  refine .succ ?_
  have hstep : ∀ fuel, descend db (fuel + 1) ⟨g, node, nameBuf⟩ comp
      = .error (.notFound c.g c.node) := by
    intro fuel
    simp [descend, searchChild, hnext, hnull, dbNodeIsNull, dbNodeGetType, searchOutcome]
  simp only [hstep, error_bind]
  exact .const hE

/-- The lookup of a path from the root. -/
theorem find {path : CString} (h : Descends db E P (pathComponents path) g dbGetRoot)
    {E' : Trap → Prop} (htrap : ∀ t, E (.trap t) → E' t) (child : DbNode) (nameBuf : NameBuf) :
    Ends E' (fun found : Found => (found.code = 0 ∧ P found.g found.node) ∨
        (found.code = enoent ∧ E (.notFound found.g found.node)))
      (fun fuel => dbFindNodeByPath db fuel g path child nameBuf) := by
  simp only [dbFindNodeByPath_eq_fold]
  obtain ⟨r, hr, hout⟩ := h (Buf.zero _)
  refine ⟨lookupResult r, hr.mono fun n hn => congrArg lookupResult hn, ?_⟩
  cases r with
  | ok d => exact Or.inl ⟨rfl, hout⟩
  | error stop =>
    cases stop with
    | trap t => exact htrap t hout
    | notFound g node => exact Or.inr ⟨rfl, hout⟩

end Descends

/-! ## Tables -/

/-- The shared variables are the same, except for the positions below an interface. -/
structure SameCounts (g g' : Globals) : Prop where
  fieldCount : g'.fieldCount = g.fieldCount
  saulFieldCount : g'.saulFieldCount = g.saulFieldCount
  numNeighbours : g'.numNeighbours = g.numNeighbours

theorem SameCounts.refl (g : Globals) : SameCounts g g := ⟨rfl, rfl, rfl⟩

theorem SameCounts.trans {g g' g'' : Globals} (h : SameCounts g g') (h' : SameCounts g' g'') :
    SameCounts g g'' :=
  ⟨h'.1.trans h.1, h'.2.trans h.2, h'.3.trans h.3⟩

theorem sameCounts_constructed (g : Globals) (node : DbNode) :
    SameCounts g (node.constructed g) := by
  unfold DbNode.constructed
  split
  · exact ⟨rfl, rfl, rfl⟩
  · exact .refl g

/-- The cursor at a row of a folder of the tables. -/
def AtRow (g : Globals) (row : TableRow) (c : Cursor) : Prop :=
  ∃ g', SameCounts g g' ∧ c.g = row.node.constructed g' ∧ c.child = row.node

theorem lists_rows {node : DbNode} (hn : TableNode db node)
    (hlen : (tableRows db node).length ≤ 255) {rows : List TableRow}
    (hrows : ∀ row ∈ rows, row.type ≠ .null ∧ row.name.toCString.length < dbNodeNameMax)
    {k : UInt8} (hk : (tableRows db node).drop k.toNat = rows) {g₀ g : Globals}
    (hg : SameCounts g₀ g) (child : DbNode) :
    Lists db (fun row : TableRow => row.name.toCString) (AtRow g₀) ⟨g, node.withPos k, child⟩
      rows := by
  induction rows generalizing k g child with
  | nil => exact .nil
  | cons row rows ih =>
    obtain ⟨⟨htype, hlt⟩, hrows⟩ := List.forall_mem_cons.mp hrows
    have hrow : (tableRows db node)[k.toNat]? = some row := by
      have h := congrArg (·[0]?) hk
      simpa using h
    have hlt' : k.toNat < (tableRows db node).length := (List.getElem?_eq_some_iff.mp hrow).1
    have hk' : (k + 1).toNat = k.toNat + 1 := uint8_add_one (by omega)
    have hrest : (tableRows db node).drop (k + 1).toNat = rows := by
      rw [hk', ← List.drop_drop, hk]
      rfl
    refine .cons (getNextChild_row_eq hn hrow g child) ⟨?_, names_row hn hrow hlt _⟩
      ⟨g, hg, rfl, rfl⟩ (ih hrows hrest (hg.trans (sameCounts_constructed g row.node)) row.node)
    rw [dbNodeIsNull_eq (row_type hn hrow _)]
    simp [htype]

/-- The names of the rows of a branch. -/
def DbFlEntry.names (e : DbFlEntry) : List (List Char) :=
  e.staticEntries.map (·.name.chars) ++ e.dynamicEntries.map (·.getNodeFn.nodeName.chars)

theorem names_rows (env : Env) (flIdx : UInt8) (e : DbFlEntry) :
    ((e.rows env flIdx).map fun row => row.name.toCString.chars) = e.names := by
  rw [DbFlEntry.rows, DbFlEntry.names, List.map_append, List.map_map]
  congr 1
  refine List.ext_getElem? fun i => ?_
  simp only [List.getElem?_map, List.getElem?_mapIdx, Option.map_map]
  rfl

theorem names_branches (index : List DbFlEntry) (idx : UInt8) (env : Env) :
    ((tableRows ⟨env, index⟩ (.root idx)).map fun row => row.name.toCString.chars)
      = index.map (·.branchName.chars) := by
  refine List.ext_getElem? fun i => ?_
  simp only [tableRows, List.getElem?_map, List.getElem?_mapIdx, Option.map_map]
  rfl

/-- **In the tables no name is a beginning of another one.** -/
theorem siblingNames_tables (cfg : Config) {e : DbFlEntry} (he : e ∈ dbIndex cfg) :
    SiblingNames e.names := by
  obtain ⟨ps, network, saul⟩ := cfg
  rcases mem_dbIndex he with rfl | rfl | rfl | rfl
  · decide
  · cases ps <;> cases network <;> cases saul <;> decide
  · decide
  · decide

/-! ## Processes -/

section Families

/-- The name of a thread. -/
def Env.threadName (env : Env) (pid : Nat) : CString :=
  match env.schedThreads pid with
  | some p => p.name
  | none => .lit ""

theorem offers_process {pid : Nat} (hlive : db.env.Live pid)
    (hlt : (db.env.threadName pid).length < dbNodeNameMax) (g : Globals) (node : DbNode) :
    Offers db ⟨g, node, .ps pid .process⟩ (db.env.threadName pid) := by
  obtain ⟨p, hp⟩ := Option.isSome_iff_exists.mp hlive.2.2
  have hname : db.env.threadName pid = p.name := by simp only [Env.threadName, hp]
  rw [hname] at hlt ⊢
  exact ⟨rfl, names_process hlive.2.1 hp hlt g⟩

/-- The live threads, from a pid on. -/
theorem lists_processes (n : Nat) {pid : Nat} (hpid : db.env.PidOrEnd pid)
    (hn : db.env.kernelPidLast < pid + n)
    (hlt : ∀ p ∈ db.env.pidsFrom pid, (db.env.threadName p).length < dbNodeNameMax) (g : Globals)
    (child : DbNode) :
    Lists db db.env.threadName (fun p c => c.g = g ∧ c.child = .ps p .process)
      ⟨g, .ps pid .root, child⟩ (db.env.pidsFrom pid) := by
  induction n generalizing pid child with
  | zero =>
    obtain rfl := hpid.resolve_left fun hlive => absurd hlive.2.1 (by omega)
    rw [pidsFrom_last]
    exact .nil
  | succ n ih =>
    rcases hpid with hlive | rfl
    · obtain ⟨next, hnext, hgt, hend⟩ := getNextPid_eq hlive.1 hlive.2.1
      rw [pidsFrom_next hlive hnext] at hlt ⊢
      obtain ⟨hself, hrest⟩ := List.forall_mem_cons.mp hlt
      exact .cons (next_psRoot child hlive.2.1 hnext) (offers_process hlive hself g _) ⟨rfl, rfl⟩
        (ih hend (by omega) hrest _)
    · rw [pidsFrom_last]
      exact .nil

/-- The name of a field of a process. -/
def psFieldLabel (fieldCount : Int8) : CString := .lit ((psFieldName fieldCount).getD "")

theorem siblingNames_psFields :
    SiblingNames (([0, 1, 2, 3, 4] : List Int8).map fun x => (psFieldLabel x).chars) :=
  by decide

/-- The fields of a process, from the first one on. -/
theorem lists_psFields {pid : Nat} (hlive : db.env.Live pid) {g : Globals}
    (hzero : g.fieldCount = 0) (child : DbNode) :
    Lists db psFieldLabel (fun x c => c.g = { g with fieldCount := x } ∧ c.child = .ps pid .field)
      ⟨g, .ps pid .process, child⟩ [0, 1, 2, 3, 4] := by
  obtain ⟨next, hnext, -, -⟩ := getNextPid_eq hlive.1 hlive.2.1
  have hoffers : ∀ x, (psFieldName x).isSome →
      Offers db ⟨{ g with fieldCount := x }, .ps next .field, .ps pid .field⟩ (psFieldLabel x) := by
    intro x hx
    obtain ⟨field, hf⟩ := Option.isSome_iff_exists.mp hx
    refine ⟨?_, ?_⟩
    · show Except.ok (decide (psNodeGettype { g with fieldCount := x } .field = .null)) = _
      rw [psNodeGettype_field]
      split_ifs <;> rfl
    · have hlabel : psFieldLabel x = .lit field := by rw [psFieldLabel, hf, Option.getD_some]
      rw [hlabel]
      exact names_psField (g := { g with fieldCount := x }) hlive.2.1 hf
  have hstep : ∀ x : Int8, x ≠ psCount - 1 →
      dbNodeGetNextChild db ⟨{ g with fieldCount := x }, .ps next .field, .ps pid .field⟩
        = .ok ⟨{ g with fieldCount := x + 1 }, .ps next .field, .ps pid .field⟩ :=
    fun x hx => next_psField (g := { g with fieldCount := x }) (.ps pid .field) hx
  have hfirst : dbNodeGetNextChild db ⟨g, .ps pid .process, child⟩
      = .ok ⟨{ g with fieldCount := 0 }, .ps next .field, .ps pid .field⟩ := by
    rw [next_process child hlive.2.1 (by rw [hzero]; decide) hnext, ← hzero]
  refine .cons hfirst (hoffers 0 rfl) ⟨rfl, rfl⟩ ?_
  refine .cons (hstep 0 (by decide)) (hoffers 1 rfl) ⟨rfl, rfl⟩ ?_
  refine .cons (hstep 1 (by decide)) (hoffers 2 rfl) ⟨rfl, rfl⟩ ?_
  refine .cons (hstep 2 (by decide)) (hoffers 3 rfl) ⟨rfl, rfl⟩ ?_
  exact .cons (hstep 3 (by decide)) (hoffers 4 rfl) ⟨rfl, rfl⟩ .nil

/-! ## Devices -/

/-- The name of the device at a position. -/
def Env.deviceName (env : Env) (i : Nat) : CString :=
  match env.saulReg[i]? with
  | some r => r.name
  | none => .lit ""

theorem offers_device {i : Nat} (hi : i < db.env.saulReg.length)
    (hlt : (db.env.deviceName i).length < dbNodeNameMax) (g : Globals) (node : DbNode) :
    Offers db ⟨g, node, .saul (some i) .device⟩ (db.env.deviceName i) := by
  have hr := List.getElem?_eq_getElem hi
  have hname : db.env.deviceName i = db.env.saulReg[i].name := by simp only [Env.deviceName, hr]
  rw [hname] at hlt ⊢
  exact ⟨rfl, names_device hr hlt g⟩

/-- `n` devices from the one at position `i` on. -/
theorem lists_devices (n : Nat) {i : Nat} (hn : i + n = db.env.saulReg.length)
    (hlt : ∀ j ∈ List.range' i n, (db.env.deviceName j).length < dbNodeNameMax) (g : Globals)
    (child : DbNode) :
    Lists db db.env.deviceName (fun j c => c.g = g ∧ c.child = .saul (some j) .device)
      ⟨g, .saul (linkAt db.env.saulReg.length i) .root, child⟩ (List.range' i n) := by
  induction n generalizing i child with
  | zero => exact .nil
  | succ n ih =>
    rw [List.range'_succ] at hlt ⊢
    obtain ⟨hself, hrest⟩ := List.forall_mem_cons.mp hlt
    have hi : i < db.env.saulReg.length := by omega
    rw [linkAt_of_lt hi]
    exact .cons (next_saulRoot child i) (offers_device hi hself g _) ⟨rfl, rfl⟩
      (ih (by omega) hrest _)

theorem siblingNames_class : SiblingNames ([()].map fun _ => (CString.lit "class").chars) :=
  by decide

/-- The only field of a device. -/
theorem lists_class (i : Nat) {g : Globals} (hzero : g.saulFieldCount = 0) (child : DbNode) :
    Lists db (fun _ : Unit => .lit "class") (fun _ c => c.g = g ∧ c.child = .saul (some i) .field)
      ⟨g, .saul (some i) .device, child⟩ [()] :=
  .cons (next_device child hzero) ⟨rfl, names_saulField i hzero⟩ ⟨rfl, rfl⟩ .nil

/-! ## Interfaces -/

/-- The name of the interface at a position. -/
def Env.ifaceName (env : Env) (i : Nat) : CString :=
  match env.ifaces[i]? with
  | some n => n.name
  | none => .lit ""

theorem offers_iface {i : Nat} (hi : i < db.env.ifaces.length)
    (hlt : (db.env.ifaceName i).length < dbNodeNameMax) (g : Globals) (node : DbNode) :
    Offers db ⟨g, node, .netif (some i) .iface⟩ (db.env.ifaceName i) := by
  have hn := List.getElem?_eq_getElem hi
  have hname : db.env.ifaceName i = db.env.ifaces[i].name := by simp only [Env.ifaceName, hn]
  rw [hname] at hlt ⊢
  exact ⟨rfl, names_iface hn hlt g⟩

/-- `n` interfaces from the one at position `i` on. -/
theorem lists_ifaces (n : Nat) {i : Nat} (hn : i + n = db.env.ifaces.length)
    (hlt : ∀ j ∈ List.range' i n, (db.env.ifaceName j).length < dbNodeNameMax) (g : Globals)
    (child : DbNode) :
    Lists db db.env.ifaceName (fun j c => c.g = g ∧ c.child = .netif (some j) .iface)
      ⟨g, .netif (linkAt db.env.ifaces.length i) .root, child⟩ (List.range' i n) := by
  induction n generalizing i child with
  | zero => exact .nil
  | succ n ih =>
    rw [List.range'_succ] at hlt ⊢
    obtain ⟨hself, hrest⟩ := List.forall_mem_cons.mp hlt
    have hi : i < db.env.ifaces.length := by omega
    rw [linkAt_of_lt hi]
    exact .cons (next_netifRoot child i) (offers_iface hi hself g _) ⟨rfl, rfl⟩
      (ih (by omega) hrest _)

/-- The name of a field of an interface. -/
def netifFieldLabel (fieldCount : UInt8) : CString := .lit ((netifFieldName fieldCount).getD "")

theorem siblingNames_netifFields :
    SiblingNames (([0, 1, 2, 3, 4] : List UInt8).map fun x => (netifFieldLabel x).chars) :=
  by decide

/-- The fields of an interface, from the first one on. -/
theorem lists_netifFields (i : Nat) {g : Globals} (hzero : g.netifFieldCount = 0)
    (child : DbNode) :
    Lists db netifFieldLabel
      (fun x c => c.g = { g with netifFieldCount := x } ∧ c.child = .netif (some i) .field)
      ⟨g, .netif (some i) .iface, child⟩ [0, 1, 2, 3, 4] := by
  have hoffers : ∀ x node, (netifFieldName x).isSome →
      Offers db ⟨{ g with netifFieldCount := x }, node, .netif (some i) .field⟩
        (netifFieldLabel x) := by
    intro x node hx
    obtain ⟨field, hf⟩ := Option.isSome_iff_exists.mp hx
    refine ⟨?_, ?_⟩
    · show Except.ok (decide (netifNodeGettype { g with netifFieldCount := x } .field = .null)) = _
      unfold netifNodeGettype
      split_ifs <;> rfl
    · have hlabel : netifFieldLabel x = .lit field := by
        rw [netifFieldLabel, hf, Option.getD_some]
      rw [hlabel]
      exact names_netifField (g := { g with netifFieldCount := x }) i hf
  have hstep : ∀ (iface : Option Nat) (x : UInt8), x < netifCount - 1 →
      dbNodeGetNextChild db ⟨{ g with netifFieldCount := x }, .netif iface .field,
          .netif (some i) .field⟩
        = .ok ⟨{ g with netifFieldCount := x + 1 }, .netif iface .field, .netif (some i) .field⟩ :=
    fun iface x hx => next_netifField (g := { g with netifFieldCount := x }) (.netif (some i) .field) hx
  have hfirst : dbNodeGetNextChild db ⟨g, .netif (some i) .iface, child⟩
      = .ok ⟨{ g with netifFieldCount := 0 }, .netif (db.env.netifIter (some i)) .field,
          .netif (some i) .field⟩ := by
    rw [next_iface child (by rw [hzero]; decide), ← hzero]
  refine .cons hfirst (hoffers 0 _ rfl) ⟨rfl, rfl⟩ ?_
  refine .cons (hstep _ 0 (by decide)) (hoffers 1 _ rfl) ⟨rfl, rfl⟩ ?_
  refine .cons (hstep _ 1 (by decide)) (hoffers 2 _ rfl) ⟨rfl, rfl⟩ ?_
  refine .cons (hstep _ 2 (by decide)) (hoffers 3 _ rfl) ⟨rfl, rfl⟩ ?_
  exact .cons (hstep _ 3 (by decide)) (hoffers 4 _ rfl) ⟨rfl, rfl⟩ .nil

end Families

end Dca
