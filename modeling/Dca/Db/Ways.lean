import Dca.Db.Dump
import Dca.Db.Found

/-!
# The paths of a dump

The depths and the names that a dump prints tell the way to each entry. Looked up afterwards, the
ways lead back to what has been printed, unless neighbours have been shown (`dump_found_again`).
-/

namespace Dca

open CLib

/-! ## Behind a dump -/

section Behind

variable {P : Globals → Prop} (hsame : ∀ g g', SameCounts g g' → P g → P g')
  {dump : Globals → DbNode → Globals × Forest Visit} (hdump : ∀ g node, P g → P (dump g node).1)
include hsame hdump

/-- What each row keeps is kept. -/
theorem rowsDump_keeps (rows : List TableRow) {g : Globals} (h : P g) :
    P (rowsDump dump rows g).1 := by
  induction rows generalizing g with
  | nil => exact h
  | cons row rows ih => exact ih (hdump _ _ (hsame _ _ (sameCounts_constructed g row.node) h))

/-- What one row brings about is kept by the rows behind it. -/
theorem rowsDump_sets {rows : List TableRow} {row : TableRow} (hrow : row ∈ rows)
    (hsets : ∀ g, P (dump (row.node.constructed g) row.node).1) (g : Globals) :
    P (rowsDump dump rows g).1 := by
  induction rows generalizing g with
  | nil => cases hrow
  | cons r rows ih =>
    rcases List.mem_cons.mp hrow with rfl | hrow
    · exact rowsDump_keeps hsame hdump rows (hsets g)
    · exact ih hrow _

end Behind

theorem afterFields_counts (env : Env) (i n : Nat) (g : Globals) :
    (afterFields env i n g).fieldCount = g.fieldCount ∧
      (afterFields env i n g).numNeighbours = 0 := by
  induction n generalizing g with
  | zero => exact ⟨rfl, rfl⟩
  | succ n ih =>
    obtain ⟨hfield, hnum⟩ := ih { afterValue env g (.netif (some i) .field) with
      netifFieldCount := g.netifFieldCount + 1 }
    exact ⟨hfield.trans (afterValue_frame env g _).2.2.1, hnum⟩

theorem afterIfaces_fieldCount (env : Env) (n i : Nat) (g : Globals) :
    (afterIfaces env n i g).fieldCount = g.fieldCount := by
  induction n generalizing i g with
  | zero => rfl
  | succ n ih => exact (ih _ _).trans (afterFields_counts env i _ g).1

theorem afterIfaces_numNeighbours (env : Env) (n i : Nat) {g : Globals}
    (h : n = 0 → g.numNeighbours = 0) : (afterIfaces env n i g).numNeighbours = 0 := by
  induction n generalizing i g with
  | zero => exact h rfl
  | succ n ih => exact ih _ fun _ => (afterFields_counts env i _ g).2

section Behind

variable {cfg : Config} {env : Env}

theorem dynamicDump_fieldCount (env : Env) (g : Globals) (node : DbNode)
    (h : g.fieldCount = 0) : (dynamicDump env g node).1.fieldCount = 0 := by
  unfold dynamicDump
  split
  · rfl
  · exact h
  · exact (afterIfaces_fieldCount env _ _ g).trans h
  · exact h

theorem dynamicDump_numNeighbours (env : Env) (g : Globals) (node : DbNode)
    (h : g.numNeighbours = 0) : (dynamicDump env g node).1.numNeighbours = 0 := by
  unfold dynamicDump
  split
  · exact h
  · exact h
  · exact afterIfaces_numNeighbours env _ _ fun _ => h
  · exact h

/-- What a dynamic entry brings about, if no row undoes it. -/
theorem rootDump_sets {P : Globals → Prop} (hsame : ∀ g g', SameCounts g g' → P g → P g')
    (hdump : ∀ g node, P g → P (dynamicDump env g node).1) {flIdx : UInt8} {e : DbFlEntry}
    (he : (dbIndex cfg)[flIdx.toNat]? = some e) {d : DbFlDynamicEntry} (hd : d ∈ e.dynamicEntries)
    (hsets : ∀ g, P (dynamicDump env ((d.getNodeFn.node env).constructed g)
      (d.getNodeFn.node env)).1) (g : Globals) :
    P (rootDump (.ofEnv cfg env) g).1 := by
  have hrow : ⟨d.getNodeFn.nodeName, .inner, d.getNodeFn.node env⟩
      ∈ tableRows (.ofEnv cfg env) (dbNewFlNode flIdx) := by
    rw [tableRows_branch he, DbFlEntry.rows]
    exact List.mem_append_right _ (List.mem_map.mpr ⟨d, hd, rfl⟩)
  have hbranch : ⟨e.branchName, .inner, dbNewFlNode flIdx⟩
      ∈ tableRows (.ofEnv cfg env) dbGetRoot := by
    refine List.mem_of_getElem? (i := flIdx.toNat) ?_
    have he' : (Db.ofEnv cfg env).dbIndex[flIdx.toNat]? = some e := he
    rw [dbGetRoot, tableRows, List.getElem?_mapIdx, he', Option.map_some, UInt8.ofNat_toNat]
  refine rowsDump_sets hsame (fun g node h => ?_) hbranch (fun g => ?_) g
  · exact rowsDump_keeps hsame hdump _ h
  · exact rowsDump_sets hsame hdump hrow hsets _

theorem runtime_branch (cfg : Config) :
    (dbIndex cfg)[(1 : UInt8).toNat]? = some (runtimeEntry cfg) := rfl

theorem network_branch (hnetwork : cfg.network = true) :
    (dbIndex cfg)[(2 : UInt8).toNat]? = some networkEntry := by
  rw [dbIndex, if_pos hnetwork]
  rfl

/-- **Behind a dump the counters of processes and devices are at their start.** -/
theorem rested_rootDump (hfirst : env.FirstThread) {g : Globals} (hg : g.InRange) :
    Rested cfg (rootDump (.ofEnv cfg env) g).1 := by
  have htour : TourTo (.ofEnv cfg env) DbNode.null g dbGetRoot _ _ ∧ Globals.InRange _ :=
    tourTo_root hfirst hg
  refine ⟨fun hps => ?_, htour.2.saulFieldCount⟩
  have hd : ⟨tableName "ps", .dbNewPsNode⟩ ∈ (runtimeEntry cfg).dynamicEntries := by
    simp [runtimeEntry, hps]
  exact rootDump_sets (P := fun g => g.fieldCount = 0) (fun g g' h => h.fieldCount.trans)
    (dynamicDump_fieldCount env) (runtime_branch cfg) hd (fun _ => rfl) g

/-- **Behind a dump there are no neighbours**, if there is an interface. -/
theorem numNeighbours_rootDump (hnetwork : cfg.network = true) (hifaces : env.ifaces ≠ [])
    (g : Globals) : (rootDump (.ofEnv cfg env) g).1.numNeighbours = 0 := by
  have hlen : env.ifaces.length ≠ 0 := fun h => hifaces (List.length_eq_zero_iff.mp h)
  exact rootDump_sets (P := fun g => g.numNeighbours = 0) (fun g g' h => h.numNeighbours.trans)
    (dynamicDump_numNeighbours env) (network_branch hnetwork) (List.mem_singleton_self _)
    (fun g => afterIfaces_numNeighbours env _ 0 fun h => absurd h hlen) g

end Behind

/-! ## The listing -/

/-- The entries of a dump, each with the names on the way to it. The root comes first. -/
def shownWays : List Printed → List (List CString × Printed)
  | [] => []
  | root :: out =>
    ([], root) :: Forest.listedWays Printed.name [] (out.map fun p => (p.depth, p))

section Listing

variable {db : Db} {stack : Stack}

/-- An entry has the depth and the name of its visit. -/
theorem depth_name_of_print {depth : Nat} {v : Visit} {p : Printed}
    (h : v.print db stack depth = .ok p) : p.depth = depth ∧ v.label db stack = p.name := by
  unfold Visit.print at h
  obtain ⟨name, hname, h⟩ := bind_eq_ok.mp h
  obtain ⟨type, -, h⟩ := bind_eq_ok.mp h
  have hlabel : v.label db stack = name := by simp only [Visit.label, hname]
  rw [hlabel]
  cases type with
  | null | inner =>
    rw [← Except.ok.inj h]
    exact ⟨rfl, rfl⟩
  | int | float | str =>
    obtain ⟨r, -, h⟩ := bind_eq_ok.mp h
    rw [← Except.ok.inj h]
    exact ⟨rfl, rfl⟩

/-- The visit of an entry. -/
def ShownAt (db : Db) (stack : Stack) (v : Visit) (p : Printed) : Prop :=
  v.print db stack p.depth = .ok p

/-- **A dump shows the ways to its visits.** -/
theorem shownWays_of_prints {root : Visit} {f : Forest Visit} {out : List Printed}
    (h : Prints db stack 0 (.node root f .nil) out) :
    List.Forall₂ (fun x y => x.1 = y.1 ∧ ShownAt db stack x.2 y.2)
      (([], root) :: Forest.ways (Visit.label db stack) [] f) (shownWays out) := by
  unfold Prints at h
  simp only [Forest.preorder, List.append_nil] at h
  cases h with
  | @cons _ p _ out hroot hrest =>
    have hshown : ∀ (x : Nat × Visit) (p : Printed), x.2.print db stack x.1 = .ok p →
        x.1 = p.depth ∧ x.2.label db stack = p.name ∧ ShownAt db stack x.2 p := by
      intro x p hp
      obtain ⟨hdepth, hlabel⟩ := depth_name_of_print hp
      refine ⟨hdepth.symm, hlabel, ?_⟩
      rw [ShownAt, hdepth]
      exact hp
    refine .cons ⟨rfl, (hshown _ _ hroot).2.2⟩ ?_
    have hrel : List.Forall₂ (fun (x : Nat × Visit) (y : Nat × Printed) => x.1 = y.1 ∧
        x.2.label db stack = y.2.name ∧ ShownAt db stack x.2 y.2)
        (f.preorder 1) (out.map fun p => (p.depth, p)) :=
      List.forall₂_map_right_iff.mpr (hrest.imp hshown)
    have hlisted := Forest.listedWays_rel hrel []
    obtain ⟨way, -, -, hways⟩ :=
      Forest.listedWays_preorder (Visit.label db stack) f (Nat.le_refl ([] : List CString).length)
    have hall := hways []
    simp only [List.append_nil, List.length_nil, List.take_zero, Forest.listedWays] at hall
    rw [← hall]
    exact hlisted

end Listing

/-! ## Looking up a way -/

section Lookup

variable {db : Db} {stack : Stack}

/-- The way leads to a node for which the same is printed as the dump has printed. -/
def FoundAgain (db : Db) (stack : Stack) (g : Globals) (way : List CString) (p : Printed) : Prop :=
  ∀ (child : DbNode) (nameBuf : NameBuf), ∃ N found,
    (∀ fuel ≥ N, dbFindNodeByPath db fuel g (slashPath way) child nameBuf = .ok found) ∧
      found.code = 0 ∧ Visit.print db stack p.depth ⟨found.g, found.node⟩ = .ok p

/-- The ways of all entries of a dump lead back to them. -/
def AllFoundAgain (db : Db) (stack : Stack) (g : Globals) (out : List Printed) : Prop :=
  ∀ way p, (way, p) ∈ shownWays out → FoundAgain db stack g way p

theorem FoundAgain.of_descends {way : List CString} {v : Visit} {p : Printed} {g : Globals}
    (hnames : ∀ name ∈ way, PathName name)
    (hway : Descends db (fun _ => False) (SameNode db v) (way.map (·.chars)) g dbGetRoot)
    (hp : ShownAt db stack v p) : FoundAgain db stack g way p := by
  intro child nameBuf
  rw [← pathComponents_slashPath hnames] at hway
  have hfind : Ends (fun _ => False) _ fun fuel =>
      dbFindNodeByPath db fuel g (slashPath way) child nameBuf :=
    hway.find (fun _ h => h) child nameBuf
  obtain ⟨N, r, hr, hout⟩ := hfind.exists_fuel
  cases r with
  | error t => exact hout.elim
  | ok found =>
    rcases hout with ⟨hcode, hnode, hreport⟩ | ⟨-, hnone⟩
    · refine ⟨N, found, hr, hcode, ?_⟩
      rw [hnode, print_congr hreport]
      exact hp
    · exact hnone.elim

theorem report_root (g₁ g₂ : Globals) : report db g₁ dbGetRoot = report db g₂ dbGetRoot := by
  refine Report.ext' rfl rfl ?_ rfl rfl
  rw [int_report, int_report]
  rfl

/-- All entries are found if all visits are. -/
theorem AllFoundAgain.of_allFound {g g₀ : Globals} {f : Forest Visit} {out : List Printed}
    (hprints : Prints db stack 0 (.node ⟨g₀, dbGetRoot⟩ f .nil) out)
    (hfound : AllFound db stack g dbGetRoot f) : AllFoundAgain db stack g out := by
  intro way p hp
  obtain ⟨⟨way', v⟩, hv, rfl, hshown⟩ :=
    exists_left_of_forall₂ (shownWays_of_prints hprints) hp
  rcases List.mem_cons.mp hv with hroot | hv
  · obtain ⟨rfl, rfl⟩ := Prod.mk.inj hroot
    exact .of_descends (by simp) (.nil ⟨rfl, report_root g g₀⟩) hshown
  · obtain ⟨hnames, hway⟩ := hfound way' v hv
    exact .of_descends hnames hway hshown

end Lookup

/-! ## Behind the last neighbour -/

/-- The names on the way to the latency of a neighbour. -/
def latencyWay (iface addr : CString) : List CString :=
  [.lit "network", .lit "netif", iface, .lit "neighbours", addr, .lit "latency"]

section Latency

variable {cfg : Config} {env : Env} {stack : Stack}

theorem pathComponents_latencyWay {iface : CString} (hiface : PathName iface) (addr : CString) :
    ∃ comps, comps ≠ [] ∧ pathComponents (slashPath (latencyWay iface addr))
      = (CString.lit "network").chars :: (CString.lit "netif").chars :: iface.chars
        :: (CString.lit "neighbours").chars :: comps := by
  refine ⟨pathComponents (slashPath [addr, .lit "latency"]), ?_, ?_⟩
  · refine components_ne_nil (a := 'l') '/' ?_ (by decide)
    simp only [slashPath, List.flatMap_cons, List.mem_append]
    exact Or.inr (Or.inl (by decide))
  · have hname : ∀ s : CString, s ∈ [CString.lit "network", .lit "netif", .lit "neighbours"] →
        PathName s := by
      simp only [List.forall_mem_cons]
      exact ⟨⟨by decide, by decide⟩, ⟨by decide, by decide⟩, ⟨by decide, by decide⟩, by simp⟩
    rw [latencyWay, pathComponents_cons (hname _ (by simp)), pathComponents_cons (hname _ (by simp)),
      pathComponents_cons hiface, pathComponents_cons (hname _ (by simp))]

/-- The row of the interfaces. -/
def netifRow (env : Env) : TableRow :=
  ⟨GetNodeFn.dbNewNetifNode.nodeName, .inner, GetNodeFn.dbNewNetifNode.node env⟩

theorem netifRow_mem (hnetwork : cfg.network = true) :
    netifRow env ∈ tableRows (.ofEnv cfg env) (dbNewFlNode 2) := by
  rw [tableRows_branch (network_branch hnetwork), DbFlEntry.rows]
  exact List.mem_append_right _ (List.mem_singleton_self _)

/-- The row of the network. -/
def networkRow : TableRow := ⟨networkEntry.branchName, .inner, dbNewFlNode 2⟩

theorem networkRow_mem (hnetwork : cfg.network = true) :
    networkRow ∈ tableRows (.ofEnv cfg env) dbGetRoot := by
  refine List.mem_of_getElem? (i := 2) ?_
  have he : (Db.ofEnv cfg env).dbIndex[2]? = some networkEntry := network_branch hnetwork
  rw [dbGetRoot, tableRows, List.getElem?_mapIdx, he]
  rfl

theorem iface_zero {n : Netif} (h : env.ifaces.head? = some n) :
    env.ifaces[0]? = some n ∧ 0 ∈ List.range' 0 env.ifaces.length ∧ env.ifaceName 0 = n.name := by
  rw [List.head?_eq_getElem?] at h
  refine ⟨h, ?_, ?_⟩
  · rw [List.mem_range'_1]
    exact ⟨Nat.le_refl 0, by have := (List.getElem?_eq_some_iff.mp h).1; omega⟩
  · simp only [Env.ifaceName, h]

/-- **Where there are no neighbours, a lookup ends at the folder `neighbours`.** -/
theorem not_foundAgain_latency (hnetwork : cfg.network = true) (hnames : SiblingsApart env)
    {n : Netif} (hhead : env.ifaces.head? = some n) {g : Globals} (hzero : g.numNeighbours = 0)
    (addr : CString) (p : Printed) :
    ¬ FoundAgain (.ofEnv cfg env) stack g (latencyWay n.name addr) p := by
  intro hfound
  obtain ⟨hiface, hmem, hname⟩ := iface_zero hhead
  have hifaces := hnames.ifaces
  rw [← map_ifaceName] at hifaces
  have hpath : PathName n.name := hname ▸ hifaces.pathName hmem
  obtain ⟨comps, hcomps, hpath⟩ := pathComponents_latencyWay hpath addr
  have hway : Descends (.ofEnv cfg env) (fun stop => ∃ g node, stop = .notFound g node)
      (fun _ _ => False) (pathComponents (slashPath (latencyWay n.name addr))) g dbGetRoot := by
    rw [hpath]
    refine folder_root.descends (networkRow_mem hnetwork) fun g₁ h₁ => ?_
    refine (folder_branch (network_branch hnetwork)).descends (netifRow_mem hnetwork)
      fun g₂ h₂ => ?_
    have hzero₂ : g₂.numNeighbours = 0 := (h₁.trans h₂).numNeighbours.trans hzero
    have hlists : Lists (.ofEnv cfg env) env.ifaceName _
        ⟨(netifRow env).node.constructed g₂, (netifRow env).node, (netifRow env).node⟩ _ :=
      lists_ifaces _ (Nat.zero_add _) (fun j => hifaces.length_lt) _ _
    rw [← hname]
    refine .cons hlists hifaces hmem ?_
    rintro c ⟨hg, hchild⟩
    rw [hg, hchild]
    refine .cons (i := 4) (lists_netifFields 0 rfl _) siblingNames_netifFields (by simp) ?_
    rintro c ⟨hg, hchild⟩
    rw [hg, hchild]
    refine .refused hcomps (next_netifField_end _ rfl (Or.inr ?_)) rfl ⟨_, _, rfl⟩
    exact hzero₂
  have hfind : Ends (fun _ => False) _ fun fuel => dbFindNodeByPath (.ofEnv cfg env) fuel g
      (slashPath (latencyWay n.name addr)) .null (Buf.zero _) :=
    hway.find (fun t h => by obtain ⟨_, _, h⟩ := h; cases h) _ _
  obtain ⟨N, r, hr, hout⟩ := hfind.exists_fuel
  obtain ⟨N', found, hr', hcode, -⟩ := hfound .null (Buf.zero _)
  have hsame : r = .ok found :=
    (hr (N + N') (Nat.le_add_right N N')).symm.trans (hr' (N + N') (Nat.le_add_left N' N))
  subst hsame
  rcases hout with ⟨-, hnone⟩ | ⟨henoent, -⟩
  · exact hnone
  · rw [henoent] at hcode
    exact absurd hcode (by decide)

/-! ### The entries of the neighbours -/

/-- A way below a row. -/
theorem Folder.mem_ways {node : DbNode} (h : Folder (.ofEnv cfg env) node) (stack : Stack)
    {row : TableRow} (hrow : row ∈ tableRows (.ofEnv cfg env) node)
    (dump : Globals → DbNode → Globals × Forest Visit) (g : Globals) :
    ∃ g₁, ∀ way v, (way, v) ∈ Forest.ways (Visit.label (.ofEnv cfg env) stack) []
        (dump (row.node.constructed g₁) row.node).2 →
      (row.name.toCString :: way, v) ∈ Forest.ways (Visit.label (.ofEnv cfg env) stack) []
        (rowsDump dump (tableRows (.ofEnv cfg env) node) g).2 := by
  have hlabel := h.label stack hrow
  generalize tableRows (.ofEnv cfg env) node = rows at hrow ⊢
  induction rows generalizing g with
  | nil => cases hrow
  | cons r rows ih =>
    rcases List.mem_cons.mp hrow with rfl | hrow
    · refine ⟨g, fun way v hv => ?_⟩
      rw [← hlabel (row.node.constructed g)]
      exact Forest.mem_ways_below hv
    · obtain ⟨g₁, h₁⟩ := ih (dump (r.node.constructed g) r.node).1 hrow
      exact ⟨g₁, fun way v hv => Forest.mem_ways_behind (h₁ way v hv)⟩

/-- A way below the folder `neighbours`. -/
theorem mem_ways_neighbours {label : Visit → CString} {i n : Nat} {g : Globals}
    {way : List CString} {v : Visit}
    (h : (way, v) ∈ Forest.ways label [] (neighbourForest i (atNeighbours env i n g).numNeighbours.toNat
      (atNeighbours env i n g))) :
    (label ⟨atNeighbours env i n g, .netif (some i) .field⟩ :: way, v)
      ∈ Forest.ways label [] (ifaceForest env i n g) := by
  induction n generalizing g with
  | zero => exact Forest.mem_ways_below h
  | succ n ih => exact Forest.mem_ways_behind (ih h)

theorem atNeighbours_netifFieldCount (i n : Nat) {g : Globals}
    (hn : g.netifFieldCount.toNat + n = 4) : (atNeighbours env i n g).netifFieldCount = 4 := by
  induction n generalizing g with
  | zero => exact UInt8.toNat_inj.mp hn
  | succ n ih =>
    have hadd := uint8_add_one (x := g.netifFieldCount) (by omega)
    exact ih (g := { afterValue env g (.netif (some i) .field) with
      netifFieldCount := g.netifFieldCount + 1 }) (by dsimp only; omega)

/-- **The latency of a neighbour is visited**, if there is a neighbour. -/
theorem latency_mem_ways (hnetwork : cfg.network = true) (hnames : SiblingsApart env) {n : Netif}
    (hhead : env.ifaces.head? = some n) (hcount : (env.nibNc n.id).length % 256 ≠ 0) (g : Globals) :
    ∃ addr v, (latencyWay n.name addr, v)
      ∈ Forest.ways (Visit.label (.ofEnv cfg env) stack) [] (rootDump (.ofEnv cfg env) g).2 := by
  obtain ⟨hiface, hmem, hname⟩ := iface_zero hhead
  have hifaces := hnames.ifaces
  rw [← map_ifaceName] at hifaces
  have hlt : 0 < env.ifaces.length := (List.getElem?_eq_some_iff.mp hiface).1
  have hroot : Folder (.ofEnv cfg env) dbGetRoot := folder_root
  have hbranch : Folder (.ofEnv cfg env) (dbNewFlNode 2) := folder_branch (network_branch hnetwork)
  obtain ⟨g₁, hnetworkWay⟩ :=
    hroot.mem_ways stack (networkRow_mem hnetwork) (branchDump (.ofEnv cfg env)) g
  obtain ⟨g₂, hnetifWay⟩ := hbranch.mem_ways stack (netifRow_mem hnetwork) (dynamicDump env)
    (networkRow.node.constructed g₁)
  -- the interface is entered at its first field
  let g₃ : Globals := { g₂ with netifFieldCount := 0, netifSubFieldCount := 1 }
  let g₄ := atNeighbours env 0 4 g₃
  have hnum : g₄.numNeighbours.toNat ≠ 0 := by
    rw [atNeighbours_numNeighbours hiface 4 rfl (by decide), UInt8.toNat_ofNat']
    exact hcount
  have hfour : g₄.netifFieldCount = 4 := atNeighbours_netifFieldCount 0 4 rfl
  obtain ⟨m, hm⟩ := Nat.exists_eq_succ_of_ne_zero hnum
  have hlatency : Names (.ofEnv cfg env) { g₄ with netifSubFieldCount := 2 }
      (.netif (some 0) .qos) (.lit "latency") := names_qos 0 rfl
  have hfield : Names (.ofEnv cfg env) g₄ (.netif (some 0) .field) (.lit "neighbours") :=
    names_netifField 0 (by rw [hfour]; rfl)
  have hname₀ : Names (.ofEnv cfg env) g₃ (.netif (some 0) .iface) (env.ifaceName 0) :=
    (offers_iface hlt (hifaces.length_lt hmem) g₃ .null).names
  let v : Visit := ⟨{ g₄ with netifSubFieldCount := 2 }, .netif (some 0) .qos⟩
  let addr := Visit.label (.ofEnv cfg env) stack
    ⟨{ g₄ with netifSubFieldCount := 2 }, .netif (some 0) .neighbour⟩
  have hqos : ([.lit "latency"], v)
      ∈ Forest.ways (Visit.label (.ofEnv cfg env) stack) [] (qosForest 0 g₄) := by
    rw [← hlatency.label stack]
    exact Forest.mem_ways_root _ _ _ _
  have hneighbour : ([addr, .lit "latency"], v)
      ∈ Forest.ways (Visit.label (.ofEnv cfg env) stack) []
        (neighbourForest 0 g₄.numNeighbours.toNat g₄) := by
    rw [hm]
    exact Forest.mem_ways_below hqos
  have hfields := mem_ways_neighbours hneighbour
  rw [hfield.label stack] at hfields
  have hifaceWay : ([n.name, .lit "neighbours", addr, .lit "latency"], v)
      ∈ Forest.ways (Visit.label (.ofEnv cfg env) stack) []
        (netifForest env env.ifaces.length 0 g₃) := by
    obtain ⟨k, hk⟩ := Nat.exists_eq_succ_of_ne_zero (Nat.ne_of_gt hlt)
    rw [hk, ← hname, ← hname₀.label stack]
    exact Forest.mem_ways_below hfields
  exact ⟨addr, v, hnetworkWay _ _ (hnetifWay _ _ hifaceWay)⟩

end Latency

/-! ## Dumps -/

section Dumps

variable {cfg : Config} {env : Env} {stack : Stack} {g g' : Globals} {fuel : Nat}
  {out : List Printed}

theorem dcadump_mono {db : Db} {r : Globals × List Printed} (h : dcadump db stack fuel g = .ok r) :
    dcadump db stack (fuel + 1) g = .ok r := by
  have hcode : ¬ (0 : Int) < 0 := by decide
  simp only [dcadump, find_root, ok_bind, if_neg hcode] at h ⊢
  obtain ⟨r', htree, h⟩ := bind_eq_ok.mp h
  rw [(tree_mono fuel).1 _ _ _ _ htree]
  exact h

/-- What a dump leaves and prints. -/
theorem prints_of_dcadump (hfirst : env.FirstThread) (hg : g.InRange)
    (h : dcadump (.ofEnv cfg env) stack fuel g = .ok (g', out)) :
    g' = (rootDump (.ofEnv cfg env) g).1 ∧ Prints (.ofEnv cfg env) stack 0
      (.node ⟨g, dbGetRoot⟩ (rootDump (.ofEnv cfg env) g).2 .nil) out :=
  (ends_dcadump hfirst hg).of_eq_ok (fun _ _ => dcadump_mono) h

/-- If there is a neighbour to show, its latency is printed and not found again. -/
theorem not_allFoundAgain (hfirst : env.FirstThread) (hnames : SiblingsApart env) (hg : g.InRange)
    (hdump : dcadump (.ofEnv cfg env) stack fuel g = .ok (g', out)) (hsome : ¬ NoNeighbours cfg env) :
    ¬ AllFoundAgain (.ofEnv cfg env) stack g' out := by
  intro hall
  obtain ⟨rfl, hprints⟩ := prints_of_dcadump hfirst hg hdump
  simp only [NoNeighbours, Classical.not_imp, not_forall] at hsome
  obtain ⟨hnetwork, n, hhead, hcount⟩ := hsome
  obtain ⟨addr, v, hway⟩ := latency_mem_ways hnetwork hnames hhead hcount g
  obtain ⟨⟨way, p⟩, hp, rfl, -⟩ := exists_left_of_forall₂ (shownWays_of_prints hprints).flip
    (List.mem_cons_of_mem _ hway)
  have hifaces : env.ifaces ≠ [] := by
    intro hnil
    rw [hnil] at hhead
    cases hhead
  exact not_foundAgain_latency hnetwork hnames hhead (numNeighbours_rootDump hnetwork hifaces g) addr
    p (hall _ _ hp)

end Dumps

/-- A call of the dump with empty arrays. -/
def emptyStack : Stack := ⟨.null, Buf.zero _, Buf.zero _⟩

theorem siblingsApart_small : SiblingsApart smallEnv where
  threads := by decide
  devices := by decide
  ifaces := by decide
  neighbours := by
    intro n hn
    obtain rfl := List.mem_singleton.mp hn
    decide

/-- The path of the neighbour on the small board. -/
def neighbourPath : CString := .lit "/network/netif/6/neighbours/fe80::1"

/-- The address of a neighbour is printed, and looked up afterwards it is not found. -/
theorem dump_not_found_again :
    smallEnv.FirstThread ∧ SiblingsApart smallEnv ∧
      ∃ g' out, dcadump smallDb emptyStack 60 {} = .ok (g', out) ∧
        neighbourPath ∈ (shownWays out).map (fun x => slashPath x.1) ∧
        (dbFindNodeByPath smallDb 60 g' neighbourPath .null (Buf.zero _)).toOption.map Found.code
          = some enoent ∧
        ¬ AllFoundAgain smallDb emptyStack g' out := by
  have hfirst : smallEnv.FirstThread := by
    unfold Env.FirstThread Env.Live
    decide
  have hrun : ∃ r, dcadump smallDb emptyStack 60 {} = .ok r ∧ _ :=
    exists_ok_of_any (P := fun r : Globals × List Printed =>
      neighbourPath ∈ (shownWays r.2).map (fun x => slashPath x.1) ∧
        (dbFindNodeByPath smallDb 60 r.1 neighbourPath .null (Buf.zero _)).toOption.map Found.code
          = some enoent) (by decide +kernel)
  obtain ⟨⟨g', out⟩, hdump, hshown, hcode⟩ := hrun
  refine ⟨hfirst, siblingsApart_small, g', out, hdump, hshown, hcode, ?_⟩
  refine not_allFoundAgain hfirst siblingsApart_small ⟨by decide, by decide, rfl, by decide⟩ hdump
    fun hnone => ?_
  exact absurd (hnone rfl _ rfl) (by decide)

/--
**What a dump has shown is found again under the names on the way to it**, whatever earlier
operations left in the counters, if and only if the dump has no neighbours to show. The dump counts
the neighbours down to none, and no lookup counts them anew.
-/
theorem dump_found_again (cfg : Config) (env : Env) (hfirst : env.FirstThread)
    (hnames : SiblingsApart env) (g : Globals) (hg : g.InRange) (stack : Stack) (fuel : Nat)
    (g' : Globals) (out : List Printed)
    (hdump : dcadump (.ofEnv cfg env) stack fuel g = .ok (g', out)) :
    AllFoundAgain (.ofEnv cfg env) stack g' out ↔ NoNeighbours cfg env := by
  constructor
  · intro hall
    by_contra hsome
    exact not_allFoundAgain hfirst hnames hg hdump hsome hall
  · intro hnone
    obtain ⟨rfl, hprints⟩ := prints_of_dcadump hfirst hg hdump
    exact .of_allFound hprints (allFound_root hfirst hnames hnone (rested_rootDump hfirst hg) hg)

/-- The small board without its neighbour. -/
def quietEnv : Env := { smallEnv with nibNc := fun _ => [] }

theorem dump_found_again_quiet :
    ∃ g' out, dcadump (.ofEnv {} quietEnv) emptyStack 60 { fieldCount := 3, numNeighbours := 2 }
        = .ok (g', out) ∧ out.length = 38 ∧
      AllFoundAgain (.ofEnv {} quietEnv) emptyStack g' out := by
  have hrun : ∃ r, dcadump (.ofEnv {} quietEnv) emptyStack 60 { fieldCount := 3, numNeighbours := 2 }
      = .ok r ∧ r.2.length = 38 :=
    exists_ok_of_any (P := fun r : Globals × List Printed => r.2.length = 38) (by decide +kernel)
  obtain ⟨⟨g', out⟩, hdump, hlen⟩ := hrun
  have hfirst : quietEnv.FirstThread := by
    unfold Env.FirstThread Env.Live
    decide
  have hnames : SiblingsApart quietEnv := {
    threads := siblingsApart_small.threads
    devices := siblingsApart_small.devices
    ifaces := siblingsApart_small.ifaces
    neighbours := fun _ _ => .nil }
  refine ⟨g', out, hdump, hlen, ?_⟩
  refine (dump_found_again {} quietEnv hfirst hnames _ ⟨by decide, by decide, rfl, by decide⟩
    emptyStack 60 g' out hdump).mpr fun _ n hn => ?_
  obtain rfl := Option.some.inj hn
  rfl

end Dca
