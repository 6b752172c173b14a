import Dca.Db.Dump
import Dca.Db.Seek

/-!
# Looking up what a dump has shown

The way to an entry of a dump is the names above it, and a lookup of this way after the dump takes
children without descending into them. Where the names of siblings are apart it comes to the same
node with the same position among its siblings, level by level (`AllFound.of_trees`). The exception
are the neighbours: the dump has counted them down, and afterwards there are none.
-/

namespace Dca

open CLib

/-! ## What is printed comes from the report -/

section Congr

variable {db : Db} {g₁ g₂ : Globals} {node : DbNode}

theorem valueToStr_congr (h : report db g₁ node = report db g₂ node) {n : Nat} (b : Buf n) :
    Prod.snd <$> dbNodeValueToStr db g₁ node b = Prod.snd <$> dbNodeValueToStr db g₂ node b := by
  have htype : dbNodeGetType db g₁ node = dbNodeGetType db g₂ node := congrArg Report.type h
  have hint : Prod.snd <$> dbNodeGetIntValue db g₁ node = Prod.snd <$> dbNodeGetIntValue db g₂ node :=
    congrArg Report.int h
  have hfloat : dbNodeGetFloatValue db g₁ node = dbNodeGetFloatValue db g₂ node :=
    congrArg Report.float h
  have hstr : dbNodeGetStrValue db g₁ node b (n - 1) = dbNodeGetStrValue db g₂ node b (n - 1) :=
    congrFun (congrFun (congrFun (congrArg Report.str h) n) b) (n - 1)
  unfold dbNodeValueToStr
  rw [htype, hfloat, hstr]
  simp only [map_bind]
  congr 1
  funext _
  congr 1
  funext type
  cases type with
  | int =>
    simp only [map_bind]
    refine bind_eq_of_map hint ?_
    rintro ⟨g₁', v₁⟩ ⟨g₂', v₂⟩ rfl
    simp only [pure_eq_ok, map_ok]
  | float => simp only [map_bind, pure_eq_ok, map_ok]
  | str => simp only [map_bind, pure_eq_ok, map_ok]
  | null | inner => rfl

/-- **The report of a node decides what is printed for it.** -/
theorem print_congr (h : report db g₁ node = report db g₂ node) (stack : Stack) (depth : Nat) :
    Visit.print db stack depth ⟨g₁, node⟩ = Visit.print db stack depth ⟨g₂, node⟩ := by
  have hname : printNodeName db stack g₁ node = printNodeName db stack g₂ node := by
    have := congrFun (congrArg Report.name h) stack.name
    unfold printNodeName
    rw [show dbNodeGetName db g₁ node stack.name = dbNodeGetName db g₂ node stack.name from this]
  have htype : dbNodeGetType db g₁ node = dbNodeGetType db g₂ node := congrArg Report.type h
  have htext : Prod.snd <$> printNodeContent db stack g₁ node
      = Prod.snd <$> printNodeContent db stack g₂ node := by
    unfold printNodeContent
    simp only [map_bind]
    refine bind_eq_of_map (valueToStr_congr h stack.str) ?_
    rintro ⟨g₁', r⟩ ⟨g₂', _⟩ rfl
    simp only [pure_eq_ok, map_ok]
  unfold Visit.print
  simp only [hname, htype]
  congr 1
  funext name
  congr 1
  funext type
  cases type with
  | null | inner => rfl
  | int | float | str =>
    refine bind_eq_of_map htext ?_
    rintro ⟨g₁', text⟩ ⟨g₂', _⟩ rfl
    rfl

end Congr

/-! ## Level by level -/

/-- The name that is printed. -/
def Visit.label (db : Db) (stack : Stack) (v : Visit) : CString :=
  match printNodeName db stack v.g v.node with
  | .ok name => name
  | .error _ => .lit ""

theorem Names.label {db : Db} {g : Globals} {node : DbNode} {name : CString}
    (h : Names db g node name) (stack : Stack) : Visit.label db stack ⟨g, node⟩ = name := by
  simp only [Visit.label, h.print]

/-- The node of the visit, in a state in which it reports the same. -/
def SameNode (db : Db) (v : Visit) (g : Globals) (node : DbNode) : Prop :=
  node = v.node ∧ report db g v.node = report db v.g v.node

/-- From the node each visit is found by the names on its way. -/
def AllFound (db : Db) (stack : Stack) (g : Globals) (node : DbNode) (f : Forest Visit) : Prop :=
  ∀ way v, (way, v) ∈ Forest.ways (Visit.label db stack) [] f →
    (∀ name ∈ way, PathName name) ∧
      Descends db (fun _ => False) (SameNode db v) (way.map (·.chars)) g node

section Rule

variable {db : Db} {stack : Stack} {g : Globals} {node : DbNode}

theorem AllFound.nil : AllFound db stack g node .nil := by
  intro way v hv
  cases hv

/-- **One level**: each tree belongs to a child that is found by its name. -/
theorem AllFound.of_trees {ι : Type} {name : ι → CString} {At : ι → Cursor → Prop} {items : List ι}
    (h : Lists db name At ⟨g, node, node⟩ items)
    (hnames : SiblingNames (items.map fun i => (name i).chars)) {f : Forest Visit}
    (htrees : f.AllTrees fun v below => ∃ i ∈ items, v.label db stack = name i ∧
      ∀ c, At i c → SameNode db v c.g c.child ∧ AllFound db stack c.g c.child below) :
    AllFound db stack g node f := by
  intro way v hv
  obtain ⟨a, below, ⟨i, hi, hlabel, hat⟩, hway⟩ := htrees.of_mem_ways hv
  rw [hlabel] at hway
  have hname := hnames.pathName hi
  rcases hway with ⟨rfl, rfl⟩ | ⟨rest, rfl, hrest⟩
  · exact ⟨by simpa using hname, .cons h hnames hi fun c hc => .nil (hat c hc).1⟩
  · obtain ⟨c, hc⟩ := h.exists_at hi
    refine ⟨List.forall_mem_cons.mpr ⟨hname, ((hat c hc).2 _ _ hrest).1⟩, ?_⟩
    exact .cons h hnames hi fun c hc => ((hat c hc).2 _ _ hrest).2

end Rule

/-! ## Processes -/

section Families

variable {db : Db} {stack : Stack}

theorem trees_psFields {pid : Nat} (n : Nat) {g : Globals} (hg : g.InRange)
    (hn : g.fieldCount.toInt + n = 4) :
    (psFieldForest pid n g).AllTrees fun v below =>
      v.node = .ps pid .field ∧ v.g.InRange ∧ below = .nil := by
  induction n generalizing g with
  | zero => exact ⟨⟨rfl, hg, rfl⟩, trivial⟩
  | succ n ih =>
    have hpos : 0 ≤ g.fieldCount.toInt := Int8.le_iff_toInt_le.mp hg.fieldCount_nonneg
    have hadd : (g.fieldCount + 1).toInt = g.fieldCount.toInt + 1 :=
      fieldCount_add_one hpos (by omega)
    refine ⟨⟨rfl, hg, rfl⟩, ih ⟨?_, ?_, hg.saulFieldCount, hg.netifFieldCount⟩ ?_⟩
    · rw [Int8.le_iff_toInt_le]
      show 0 ≤ (g.fieldCount + 1).toInt
      omega
    · rw [Int8.lt_iff_toInt_lt]
      show (g.fieldCount + 1).toInt < 5
      omega
    · show (g.fieldCount + 1).toInt + n = 4
      omega

theorem trees_processes {pids : List Nat} {g : Globals} (hg : g.InRange) :
    (psForest pids g).AllTrees fun v below => ∃ pid ∈ pids, v.node = .ps pid .process ∧
      ∃ (n : Nat) (g' : Globals), g'.InRange ∧ g'.fieldCount.toInt + n = 4 ∧ below = psFieldForest pid n g' := by
  induction pids generalizing g with
  | nil => trivial
  | cons pid pids ih =>
    refine ⟨⟨pid, List.mem_cons_self, rfl, _, g, hg, (fieldsLeft_eq hg.fieldCount_nonneg hg.fieldCount_lt).2, rfl⟩, ?_⟩
    refine (ih hg.setField).imp ?_
    rintro v below ⟨p, hp, hrest⟩
    exact ⟨p, List.mem_cons_of_mem _ hp, hrest⟩

/-- The fields of a process. -/
theorem allFound_psFields {pid : Nat} (hlive : db.env.Live pid) {g : Globals}
    (hzero : g.fieldCount = 0) {f : Forest Visit}
    (hf : f.AllTrees fun v below => v.node = .ps pid .field ∧ v.g.InRange ∧ below = .nil) :
    AllFound db stack g (.ps pid .process) f := by
  refine .of_trees (lists_psFields hlive hzero _) siblingNames_psFields (hf.imp ?_)
  rintro ⟨g', node⟩ below ⟨rfl, hrange, rfl⟩
  have hcases := hrange.fieldCount_cases
  refine ⟨g'.fieldCount, by simpa using hcases, ?_, ?_⟩
  · have hsome : ∃ field, psFieldName g'.fieldCount = some field := by
      rcases hcases with h | h | h | h | h <;> exact ⟨_, by rw [h]; rfl⟩
    obtain ⟨field, hfield⟩ := hsome
    rw [(names_psField hlive.2.1 hfield).label, psFieldLabel, hfield, Option.getD_some]
  · rintro c ⟨hg, hchild⟩
    refine ⟨⟨hchild, report_ps fun _ => ?_⟩, .nil⟩
    rw [hg]

/-- The processes. -/
theorem allFound_processes (hfirst : db.env.FirstThread)
    (hnames : SiblingNames ((db.env.pidsFrom kernelPidFirst).map fun p => (db.env.threadName p).chars))
    {g : Globals} (hzero : g.fieldCount = 0) {g' : Globals} (hg' : g'.InRange) :
    AllFound db stack g dbNewPsNode (psForest (db.env.pidsFrom kernelPidFirst) g') := by
  have hlive : ∀ p ∈ db.env.pidsFrom kernelPidFirst, db.env.Live p :=
    fun p => live_of_mem_pidsFrom (Nat.le_refl _)
  have hlists : Lists db db.env.threadName _ ⟨g, dbNewPsNode, dbNewPsNode⟩ _ :=
    lists_processes db.env.kernelPidLast (Or.inl hfirst) (Nat.lt_add_of_pos_left (by decide))
      (fun p => hnames.length_lt) g _
  refine .of_trees hlists hnames ((trees_processes hg').imp ?_)
  rintro ⟨g₁, node⟩ below ⟨pid, hpid, rfl, n, g₂, hg₂, hn, rfl⟩
  refine ⟨pid, hpid, ?_, ?_⟩
  · exact (offers_process (hlive pid hpid) (hnames.length_lt hpid) g₁ .null).names.label stack
  · rintro c ⟨hg, hchild⟩
    rw [hg, hchild]
    refine ⟨⟨rfl, report_ps (by simp)⟩, ?_⟩
    exact allFound_psFields (hlive pid hpid) hzero (trees_psFields n hg₂ hn)

/-! ## Devices -/

theorem trees_devices (n i : Nat) (g : Globals) :
    (saulForest n i g).AllTrees fun v below => ∃ j ∈ List.range' i n,
      v = ⟨g, .saul (some j) .device⟩ ∧ below = .leaf ⟨g, .saul (some j) .field⟩ := by
  induction n generalizing i with
  | zero => trivial
  | succ n ih =>
    rw [List.range'_succ]
    refine ⟨⟨i, List.mem_cons_self, rfl, rfl⟩, (ih (i + 1)).imp ?_⟩
    rintro v below ⟨j, hj, hrest⟩
    exact ⟨j, List.mem_cons_of_mem _ hj, hrest⟩

/-- The only field of a device. -/
theorem allFound_class (i : Nat) {g g' : Globals} (hzero : g.saulFieldCount = 0)
    (hzero' : g'.saulFieldCount = 0) :
    AllFound db stack g (.saul (some i) .device) (.leaf ⟨g', .saul (some i) .field⟩) := by
  refine .of_trees (lists_class i hzero _) siblingNames_class ⟨⟨(), List.mem_cons_self, ?_, ?_⟩, trivial⟩
  · exact (names_saulField i hzero').label stack
  · rintro c ⟨hg, hchild⟩
    rw [hg, hchild]
    exact ⟨⟨rfl, report_saul _ _ (hzero.trans hzero'.symm)⟩, .nil⟩

/-- What is known of the elements, by their positions. -/
theorem map_positions {α β : Type} {xs : List α} {f : α → β} {g : Nat → β}
    (h : ∀ i x, xs[i]? = some x → g i = f x) : (List.range' 0 xs.length).map g = xs.map f := by
  refine List.ext_getElem (by simp) fun i hi _ => ?_
  rw [List.length_map, List.length_range'] at hi
  simp [h i xs[i] (List.getElem?_eq_getElem hi)]

theorem map_deviceName (env : Env) :
    ((List.range' 0 env.saulReg.length).map fun i => (env.deviceName i).chars)
      = env.saulReg.map (·.name.chars) :=
  map_positions fun i r hr => by simp only [Env.deviceName, hr]

/-- The devices. -/
theorem allFound_devices (hnames : SiblingNames (db.env.saulReg.map (·.name.chars)))
    {g g' : Globals} (hzero : g.saulFieldCount = 0) (hzero' : g'.saulFieldCount = 0) :
    AllFound db stack g (dbNewSaulNode db.env) (saulForest db.env.saulReg.length 0 g') := by
  rw [← map_deviceName] at hnames
  have hlists : Lists db db.env.deviceName _ ⟨g, dbNewSaulNode db.env, dbNewSaulNode db.env⟩ _ :=
    lists_devices _ (Nat.zero_add _) (fun j => hnames.length_lt) g _
  refine .of_trees hlists hnames ((trees_devices _ 0 g').imp ?_)
  rintro v below ⟨j, hj, rfl, rfl⟩
  have hlt : j < db.env.saulReg.length := by
    have := List.mem_range'_1.mp hj
    omega
  refine ⟨j, hj, (offers_device hlt (hnames.length_lt hj) g' .null).names.label stack, ?_⟩
  rintro c ⟨hg, hchild⟩
  rw [hg, hchild]
  exact ⟨⟨rfl, report_saul _ _ (hzero.trans hzero'.symm)⟩, allFound_class j hzero hzero'⟩

/-! ## Interfaces -/

/-- The shared variables when the last of the fields is shown, with `n` fields in front of it. -/
def atNeighbours (env : Env) (i : Nat) : Nat → Globals → Globals
  | 0, g => g
  | n + 1, g =>
    atNeighbours env i n { afterValue env g (.netif (some i) .field) with
      netifFieldCount := g.netifFieldCount + 1 }

/-- **Before the folder `neighbours` is shown, the neighbours are counted**: the field in front of
it is `num_neighbours`. -/
theorem atNeighbours_numNeighbours {env : Env} {i : Nat} {iface : Netif}
    (hi : env.ifaces[i]? = some iface) (n : Nat) {g : Globals}
    (hn : g.netifFieldCount.toNat + n = 4) (hpos : 0 < n) :
    (atNeighbours env i n g).numNeighbours = UInt8.ofNat (env.nibNc iface.id).length := by
  induction n generalizing g with
  | zero => omega
  | succ n ih =>
    have hadd := uint8_add_one (x := g.netifFieldCount) (by omega)
    cases n with
    | zero =>
      have hthree : g.netifFieldCount = 3 := UInt8.toNat_inj.mp (by simpa using hn)
      simp only [atNeighbours, afterValue, if_pos hthree, hi, numNeighbours_foldl, UInt8.zero_add]
    | succ n =>
      exact ih (g := { afterValue env g (.netif (some i) .field) with
        netifFieldCount := g.netifFieldCount + 1 }) (by dsimp only; omega) (by omega)

theorem trees_ifaceFields {env : Env} {i : Nat} (n : Nat) {g : Globals}
    (hn : g.netifFieldCount.toNat + n = 4) (hnone : (atNeighbours env i n g).numNeighbours = 0) :
    (ifaceForest env i n g).AllTrees fun v below =>
      v.node = .netif (some i) .field ∧ v.g.netifFieldCount < netifCount ∧ below = .nil := by
  have hlt : g.netifFieldCount < netifCount := lt_netifCount.mpr (by omega)
  induction n generalizing g with
  | zero =>
    have hzero : g.numNeighbours = 0 := hnone
    refine ⟨⟨rfl, hlt, ?_⟩, trivial⟩
    rw [hzero]
    rfl
  | succ n ih =>
    have hadd := uint8_add_one (x := g.netifFieldCount) (by omega)
    refine ⟨⟨rfl, hlt, rfl⟩, ih (by dsimp only; omega) hnone ?_⟩
    exact lt_netifCount.mpr (by dsimp only; omega)

theorem trees_ifaces {env : Env} (n : Nat) {i : Nat} {g : Globals}
    (hcount : g.netifFieldCount < netifCount)
    (hnone : 0 < n → (atNeighbours env i (ifaceFieldsLeft g) g).numNeighbours = 0) :
    (netifForest env n i g).AllTrees fun v below => ∃ j ∈ List.range' i n,
      v.node = .netif (some j) .iface ∧ below.AllTrees fun v below =>
        v.node = .netif (some j) .field ∧ v.g.netifFieldCount < netifCount ∧ below = .nil := by
  induction n generalizing i g with
  | zero => trivial
  | succ n ih =>
    have hleft := ifaceFieldsLeft_eq hcount
    obtain ⟨hfour, -, hzero, -, -⟩ := afterFields_frame env i _ hleft
    rw [List.range'_succ]
    refine ⟨⟨i, List.mem_cons_self, rfl, trees_ifaceFields _ hleft (hnone n.succ_pos)⟩, ?_⟩
    refine (ih (by rw [hfour]; decide) fun _ => ?_).imp ?_
    · -- the next interface begins at its last field
      rw [show ifaceFieldsLeft (afterFields env i (ifaceFieldsLeft g) g) = 0 by
        rw [ifaceFieldsLeft, hfour]; rfl]
      exact hzero
    · rintro v below ⟨j, hj, hrest⟩
      exact ⟨j, List.mem_cons_of_mem _ hj, hrest⟩

/-- The fields of an interface, if no neighbours have been shown. -/
theorem allFound_ifaceFields (i : Nat) {g : Globals} (hzero : g.netifFieldCount = 0)
    {f : Forest Visit} (hf : f.AllTrees fun v below =>
      v.node = .netif (some i) .field ∧ v.g.netifFieldCount < netifCount ∧ below = .nil) :
    AllFound db stack g (.netif (some i) .iface) f := by
  refine .of_trees (lists_netifFields i hzero _) siblingNames_netifFields (hf.imp ?_)
  rintro ⟨g', node⟩ below ⟨rfl, hlt, rfl⟩
  have hcases := netifFieldCount_cases hlt
  refine ⟨g'.netifFieldCount, by simpa using hcases, ?_, ?_⟩
  · obtain ⟨field, hfield⟩ : ∃ field, netifFieldName g'.netifFieldCount = some field := by
      dsimp only at hcases
      rcases hcases with h | h | h | h | h <;> exact ⟨_, by rw [h]; rfl⟩
    rw [(names_netifField i hfield).label, netifFieldLabel, hfield, Option.getD_some]
  · rintro c ⟨hg, hchild⟩
    refine ⟨⟨hchild, ?_⟩, .nil⟩
    rw [hg]
    exact report_netif_field _ rfl hlt

theorem map_ifaceName (env : Env) :
    ((List.range' 0 env.ifaces.length).map fun i => (env.ifaceName i).chars)
      = env.ifaces.map (·.name.chars) :=
  map_positions fun i n hn => by simp only [Env.ifaceName, hn]

/-- The interfaces, if no neighbours have been shown. -/
theorem allFound_ifaces (hnames : SiblingNames (db.env.ifaces.map (·.name.chars)))
    {g g' : Globals} (hzero : g.netifFieldCount = 0) (hcount : g'.netifFieldCount < netifCount)
    (hnone : 0 < db.env.ifaces.length →
      (atNeighbours db.env 0 (ifaceFieldsLeft g') g').numNeighbours = 0) :
    AllFound db stack g (.netif (db.env.netifIter none) .root)
      (netifForest db.env db.env.ifaces.length 0 g') := by
  rw [← map_ifaceName] at hnames
  have hlists : Lists db db.env.ifaceName _ ⟨g, .netif (db.env.netifIter none) .root,
      .netif (db.env.netifIter none) .root⟩ _ :=
    lists_ifaces _ (Nat.zero_add _) (fun j => hnames.length_lt) g _
  refine .of_trees hlists hnames ((trees_ifaces _ hcount hnone).imp ?_)
  rintro ⟨g₁, node⟩ below ⟨j, hj, rfl, hbelow⟩
  have hlt : j < db.env.ifaces.length := by
    have := List.mem_range'_1.mp hj
    omega
  refine ⟨j, hj, (offers_iface hlt (hnames.length_lt hj) g₁ .null).names.label stack, ?_⟩
  rintro c ⟨hg, hchild⟩
  rw [hg, hchild]
  exact ⟨⟨rfl, report_netif_inner _ _ _ trivial⟩, allFound_ifaceFields j hzero hbelow⟩

end Families

/-! ## The tables -/

/-- The names of siblings are apart, in the tables of the kernel and in the neighbour caches. -/
structure SiblingsApart (env : Env) : Prop where
  threads : SiblingNames ((env.pidsFrom kernelPidFirst).map fun p => (env.threadName p).chars)
  devices : SiblingNames (env.saulReg.map (·.name.chars))
  ifaces : SiblingNames (env.ifaces.map (·.name.chars))
  neighbours : ∀ n ∈ env.ifaces,
    SiblingNames ((env.nibNc n.id).map fun a => (env.ipv6AddrToStr a).chars)

/--
A dump has no neighbours to show: there is no interface, or the count of the neighbours of the
first one is 0 in eight bits. Behind the first interface no neighbours are counted.
-/
def NoNeighbours (cfg : Config) (env : Env) : Prop :=
  cfg.network = true → ∀ n, env.ifaces.head? = some n → (env.nibNc n.id).length % 256 = 0

/-- The fields of processes and devices start at their first one. -/
structure Rested (cfg : Config) (g : Globals) : Prop where
  fieldCount : cfg.ps = true → g.fieldCount = 0
  saulFieldCount : g.saulFieldCount = 0

theorem Rested.same {cfg : Config} {g g' : Globals} (h : Rested cfg g) (hsame : SameCounts g g') :
    Rested cfg g' :=
  ⟨fun hps => hsame.fieldCount.trans (h.fieldCount hps),
    hsame.saulFieldCount.trans h.saulFieldCount⟩

section Tables

variable {cfg : Config} {env : Env} {stack : Stack}

/-- A folder of the tables, with its position in front of the first row. -/
structure Folder (db : Db) (node : DbNode) : Prop where
  table : TableNode db node
  start : node.withPos 0 = node
  types : ∀ row ∈ tableRows db node, row.type ≠ .null
  names : SiblingNames ((tableRows db node).map fun row => row.name.toCString.chars)

theorem folder_root : Folder (.ofEnv cfg env) dbGetRoot where
  table := .root 0
  start := rfl
  types := by
    intro row hrow
    obtain ⟨flIdx, e, -, rfl⟩ := branch_of_row hrow
    simp
  names := by
    rw [show tableRows (.ofEnv cfg env) dbGetRoot = tableRows ⟨env, dbIndex cfg⟩ (.root 0) from rfl,
      names_branches]
    exact (pathTable_ofEnv cfg env).branchNames

theorem folder_branch {flIdx : UInt8} {e : DbFlEntry}
    (he : (dbIndex cfg)[flIdx.toNat]? = some e) : Folder (.ofEnv cfg env) (dbNewFlNode flIdx) where
  table := .branch 0 he
  start := rfl
  types := by
    intro row hrow
    rw [tableRows_branch he] at hrow
    rcases entry_of_row he hrow with ⟨subIdx, s, hs, rfl⟩ | ⟨d, -, rfl⟩
    · rcases typed_ofEnv (List.mem_of_getElem? he) (List.mem_of_getElem? hs) with ht | ht | ht <;>
        simp [ht.1]
    · simp
  names := by
    rw [tableRows_branch he, names_rows]
    exact siblingNames_tables cfg (List.mem_of_getElem? he)

namespace Folder

variable {node : DbNode} (h : Folder (.ofEnv cfg env) node)
include h

theorem lists (g : Globals) :
    Lists (.ofEnv cfg env) (fun row : TableRow => row.name.toCString) (AtRow g) ⟨g, node, node⟩
      (tableRows (.ofEnv cfg env) node) := by
  have hrows : ∀ row ∈ tableRows (.ofEnv cfg env) node,
      row.type ≠ .null ∧ row.name.toCString.length < dbNodeNameMax :=
    fun row hrow => ⟨h.types row hrow, h.names.short _ (List.mem_map_of_mem hrow)⟩
  have hlists := lists_rows h.table (length_tableRows_le h.table) hrows (k := 0) rfl (.refl g) node
  rwa [h.start] at hlists

theorem label (stack : Stack) {row : TableRow} (hrow : row ∈ tableRows (.ofEnv cfg env) node)
    (g : Globals) :
    Visit.label (.ofEnv cfg env) stack ⟨g, row.node⟩ = row.name.toCString := by
  obtain ⟨i, hi⟩ := List.mem_iff_getElem?.mp hrow
  have hlt : i < 256 := by
    have hlt := (List.getElem?_eq_some_iff.mp hi).1
    have hlen := length_tableRows_le h.table
    omega
  rw [← toNat_ofNat hlt] at hi
  have hshort := h.names.short _ (List.mem_map_of_mem hrow)
  exact (names_row h.table hi hshort g).label stack

/-- The name of a row leads to it. -/
theorem descends {row : TableRow} (hrow : row ∈ tableRows (.ofEnv cfg env) node) {g : Globals}
    {E : Stop → Prop} {P : Globals → DbNode → Prop} {comps : List (List Char)}
    (hrest : ∀ g', SameCounts g g' →
      Descends (.ofEnv cfg env) E P comps (row.node.constructed g') row.node) :
    Descends (.ofEnv cfg env) E P (row.name.toCString.chars :: comps) g node := by
  refine .cons (h.lists g) h.names hrow ?_
  rintro c ⟨g', hsame, hg', hchild⟩
  rw [hg', hchild]
  exact hrest g' hsame

end Folder

/-- The visits of the rows. -/
theorem trees_rows {db : Db} {junk : DbNode} {dump : Globals → DbNode → Globals × Forest Visit}
    {rows : List TableRow} (hrows : ∀ row ∈ rows, RowTour db junk dump row) {g : Globals}
    (hg : g.InRange) :
    (rowsDump dump rows g).2.AllTrees fun v below => ∃ row ∈ rows, ∃ g₁ : Globals, g₁.InRange ∧
      v = ⟨row.node.constructed g₁, row.node⟩ ∧
        below = (dump (row.node.constructed g₁) row.node).2 := by
  induction rows generalizing g with
  | nil => trivial
  | cons row rows ih =>
    obtain ⟨hrow, hrest⟩ := List.forall_mem_cons.mp hrows
    refine ⟨⟨row, List.mem_cons_self, g, hg, rfl, rfl⟩, (ih hrest (hrow g hg).2).imp ?_⟩
    rintro v below ⟨r, hr, hv⟩
    exact ⟨r, List.mem_cons_of_mem _ hr, hv⟩

/-- What a dump has shown of a row and below it is found afterwards. -/
def FoundRow (cfg : Config) (env : Env) (stack : Stack)
    (dump : Globals → DbNode → Globals × Forest Visit) (row : TableRow) : Prop :=
  ∀ g g₁ : Globals, Rested cfg g → g₁.InRange →
    report (.ofEnv cfg env) (row.node.constructed g) row.node
        = report (.ofEnv cfg env) (row.node.constructed g₁) row.node ∧
      AllFound (.ofEnv cfg env) stack (row.node.constructed g) row.node
        (dump (row.node.constructed g₁) row.node).2

/-- The rows of a folder. -/
theorem Folder.allFound {node : DbNode} (h : Folder (.ofEnv cfg env) node) {junk : DbNode}
    {dump : Globals → DbNode → Globals × Forest Visit}
    (htours : ∀ row ∈ tableRows (.ofEnv cfg env) node, RowTour (.ofEnv cfg env) junk dump row)
    (hrows : ∀ row ∈ tableRows (.ofEnv cfg env) node, FoundRow cfg env stack dump row)
    {g g₁ : Globals} (hg : Rested cfg g) (hg₁ : g₁.InRange) :
    AllFound (.ofEnv cfg env) stack g node
      (rowsDump dump (tableRows (.ofEnv cfg env) node) g₁).2 := by
  refine .of_trees (h.lists g) h.names ((trees_rows htours hg₁).imp ?_)
  rintro v below ⟨row, hrow, g₂, hg₂, rfl, rfl⟩
  refine ⟨row, hrow, h.label stack hrow _, ?_⟩
  rintro c ⟨g', hsame, hg', hchild⟩
  rw [hg', hchild]
  obtain ⟨hreport, hbelow⟩ := hrows row hrow g' g₂ (hg.same hsame) hg₂
  exact ⟨⟨rfl, hreport⟩, hbelow⟩

/-- The option that puts a dynamic entry into the tables. -/
def GetNodeFn.enabled (cfg : Config) : GetNodeFn → Bool
  | .dbNewPsNode => cfg.ps
  | .dbNewSaulNode => cfg.saul
  | .dbNewNetifNode => cfg.network

theorem enabled_of_mem {e : DbFlEntry} (he : e ∈ dbIndex cfg) {d : DbFlDynamicEntry}
    (hd : d ∈ e.dynamicEntries) : d.getNodeFn.enabled cfg = true := by
  simp only [dbIndex, List.mem_append, List.mem_cons, List.not_mem_nil, or_false] at he
  rcases he with ((rfl | rfl) | he) | he
  · cases hd
  · simp only [runtimeEntry] at hd
    split_ifs at hd with hps
    · obtain rfl := List.mem_singleton.mp hd
      exact hps
    · cases hd
  · split_ifs at he with hnetwork
    · obtain rfl := List.mem_singleton.mp he
      obtain rfl := List.mem_singleton.mp hd
      exact hnetwork
    · cases he
  · split_ifs at he with hsaul
    · obtain rfl := List.mem_singleton.mp he
      obtain rfl := List.mem_singleton.mp hd
      exact hsaul
    · cases he

section Found

variable (hfirst : env.FirstThread) (hnames : SiblingsApart env) (hnone : NoNeighbours cfg env)
include hfirst hnames hnone

theorem foundRow_entry {flIdx : UInt8} {e : DbFlEntry}
    (he : (dbIndex cfg)[flIdx.toNat]? = some e) {row : TableRow} (hrow : row ∈ e.rows env flIdx) :
    FoundRow cfg env stack (dynamicDump env) row := by
  intro g g₁ hg hg₁
  rcases entry_of_row he hrow with ⟨subIdx, s, -, rfl⟩ | ⟨d, hd, rfl⟩
  · exact ⟨report_fl _ _ _ _ _, .nil⟩
  · have henabled := enabled_of_mem (List.mem_of_getElem? he) hd
    cases hfn : d.getNodeFn with
    | dbNewPsNode =>
      rw [hfn] at henabled
      refine ⟨report_ps (by simp), ?_⟩
      exact allFound_processes hfirst hnames.threads (hg.fieldCount henabled) hg₁
    | dbNewSaulNode =>
      refine ⟨report_saul _ _ (hg.saulFieldCount.trans hg₁.saulFieldCount.symm), ?_⟩
      exact allFound_devices hnames.devices hg.saulFieldCount hg₁.saulFieldCount
    | dbNewNetifNode =>
      rw [hfn] at henabled
      refine ⟨report_netif_inner _ _ _ trivial, ?_⟩
      refine allFound_ifaces hnames.ifaces rfl (by decide : (0 : UInt8) < netifCount) fun hpos => ?_
      have hiface : env.ifaces[0]? = some env.ifaces[0] := List.getElem?_eq_getElem hpos
      have hcount := hnone henabled _ (List.head?_eq_getElem?.trans hiface)
      show (atNeighbours env 0 4 { g₁ with
        netifFieldCount := 0, netifSubFieldCount := 1 }).numNeighbours = 0
      rw [atNeighbours_numNeighbours hiface 4 rfl (by decide)]
      refine UInt8.toNat_inj.mp ?_
      rw [UInt8.toNat_ofNat']
      exact hcount

theorem foundRow_branch {row : TableRow} (hrow : row ∈ tableRows (.ofEnv cfg env) dbGetRoot) :
    FoundRow cfg env stack (branchDump (.ofEnv cfg env)) row := by
  intro g g₁ hg hg₁
  obtain ⟨flIdx, e, he, rfl⟩ := branch_of_row hrow
  have hfolder : Folder (.ofEnv cfg env) (dbNewFlNode flIdx) := folder_branch he
  have htours : ∀ row ∈ tableRows (.ofEnv cfg env) (dbNewFlNode flIdx),
      RowTour (.ofEnv cfg env) DbNode.null (dynamicDump env) row := rowTours_entries hfirst he
  have hfound : ∀ row ∈ tableRows (.ofEnv cfg env) (dbNewFlNode flIdx),
      FoundRow cfg env stack (dynamicDump env) row := by
    rw [tableRows_branch he]
    exact fun row hrow => foundRow_entry hfirst hnames hnone he hrow
  exact ⟨report_fl _ _ _ _ _, hfolder.allFound htours hfound hg hg₁⟩

/-- **Whatever a dump visits is found afterwards**, if it shows no neighbours. -/
theorem allFound_root {g g₁ : Globals} (hg : Rested cfg g) (hg₁ : g₁.InRange) :
    AllFound (.ofEnv cfg env) stack g dbGetRoot (rootDump (.ofEnv cfg env) g₁).2 := by
  have htours : ∀ row ∈ tableRows (.ofEnv cfg env) dbGetRoot,
      RowTour (.ofEnv cfg env) DbNode.null (branchDump (.ofEnv cfg env)) row :=
    fun row hrow => rowTour_branch hfirst hrow
  exact folder_root.allFound htours (fun row => foundRow_branch hfirst hnames hnone) hg hg₁

end Found

end Tables

end Dca
