import Dca.Db.Query
import Dca.Lib.Fuel

/-!
# Lookups come to an end

A lookup takes children until one has the name, and it ends if the children do (`WalkEnds`). The
children of a node are counted by a position in a table, by a pid, by a position in a list of the
kernel, or by the shared counters. Among the neighbours the node changes between two levels while
two bytes are counted, one up and one down, and both can wrap round. But whatever they start from,
the measurements come to their last one or the neighbours to none after a few calls
(`walkEnds_qos`, `walkEnds_neighbour`).
-/

namespace Dca

open CLib

variable {db : Db}

/-! ## The children come to an end -/

variable (db) in
/-- Calls of `get_next_child` lead from the cursor to the end of the children. -/
inductive WalkEnds : Cursor → Prop where
  | last {c c' : Cursor} (h : dbNodeGetNextChild db c = .ok c') (hnull : c'.child = .null) :
      WalkEnds c
  | next {c c' : Cursor} (h : dbNodeGetNextChild db c = .ok c') (rest : WalkEnds c') : WalkEnds c

/-- The rows behind a position of a table. -/
theorem walkEnds_table {node : DbNode} (hn : TableNode db node)
    (hlen : (tableRows db node).length ≤ 255) (n : Nat) {k : UInt8}
    (hk : (tableRows db node).length ≤ k.toNat + n) (g : Globals) (child : DbNode) :
    WalkEnds db ⟨g, node.withPos k, child⟩ := by
  induction n generalizing k g child with
  | zero => exact .last (getNextChild_end hn hk g child) rfl
  | succ n ih =>
    rcases Nat.lt_or_ge k.toNat (tableRows db node).length with hlt | hge
    · refine .next (getNextChild_row_eq hn (List.getElem?_eq_getElem hlt) g child) (ih ?_ _ _)
      rw [uint8_add_one (by omega)]
      omega
    · exact .last (getNextChild_end hn hge g child) rfl

theorem walkEnds_psRoot (n : Nat) {pid : Nat} (hpid : db.env.PidOrEnd pid)
    (hn : db.env.kernelPidLast + 1 ≤ pid + n) (g : Globals) (child : DbNode) :
    WalkEnds db ⟨g, .ps pid .root, child⟩ := by
  induction n generalizing pid child with
  | zero => exact .last (next_psRoot_end child (by omega)) rfl
  | succ n ih =>
    rcases hpid with hlive | rfl
    · obtain ⟨next, hnext, hlt, hend⟩ := getNextPid_eq hlive.1 hlive.2.1
      exact .next (next_psRoot child hlive.2.1 hnext) (ih hend (by omega) _)
    · exact .last (next_psRoot_end child (by omega)) rfl

theorem walkEnds_psField {g : Globals} (hg : g.InRange) (pid : Nat) (child : DbNode) :
    WalkEnds db ⟨g, .ps pid .field, child⟩ := by
  have hlast : ∀ {g : Globals}, g.fieldCount = 4 → WalkEnds db ⟨g, .ps pid .field, child⟩ :=
    fun h => .last (next_psField_end child h) rfl
  have hthree : ∀ {g : Globals}, g.fieldCount = 3 → WalkEnds db ⟨g, .ps pid .field, child⟩ :=
    fun h => .next (next_psField child (by rw [h]; decide))
      (hlast ((congrArg (· + 1) h).trans (by decide)))
  have htwo : ∀ {g : Globals}, g.fieldCount = 2 → WalkEnds db ⟨g, .ps pid .field, child⟩ :=
    fun h => .next (next_psField child (by rw [h]; decide))
      (hthree ((congrArg (· + 1) h).trans (by decide)))
  have hone : ∀ {g : Globals}, g.fieldCount = 1 → WalkEnds db ⟨g, .ps pid .field, child⟩ :=
    fun h => .next (next_psField child (by rw [h]; decide))
      (htwo ((congrArg (· + 1) h).trans (by decide)))
  rcases hg.fieldCount_cases with h | h | h | h | h
  · exact .next (next_psField child (by rw [h]; decide))
      (hone ((congrArg (· + 1) h).trans (by decide)))
  · exact hone h
  · exact htwo h
  · exact hthree h
  · exact hlast h

theorem linkAt_of_lt {len i : Nat} (h : i < len) : linkAt len i = some i := if_pos h

theorem linkAt_of_le {len i : Nat} (h : len ≤ i) : linkAt len i = none := if_neg (Nat.not_lt.mpr h)

/-- The walk along a list of the kernel. -/
theorem walkEnds_links {len : Nat} (node : Option Nat → DbNode) (item : Nat → DbNode) {g : Globals}
    (hnext : ∀ i child, dbNodeGetNextChild db ⟨g, node (some i), child⟩
      = .ok ⟨g, node (linkAt len (i + 1)), item i⟩)
    (hend : ∀ child, dbNodeGetNextChild db ⟨g, node none, child⟩ = .ok ⟨g, node none, .null⟩)
    (n : Nat) {i : Nat} (hn : len ≤ i + n) (child : DbNode) :
    WalkEnds db ⟨g, node (linkAt len i), child⟩ := by
  induction n generalizing i child with
  | zero =>
    rw [Nat.add_zero] at hn
    rw [linkAt_of_le hn]
    exact .last (hend child) rfl
  | succ n ih =>
    rcases Nat.lt_or_ge i len with hlt | hge
    · rw [linkAt_of_lt hlt]
      exact .next (hnext i child) (ih (by omega) _)
    · rw [linkAt_of_le hge]
      exact .last (hend child) rfl

theorem walkEnds_saulRoot (n : Nat) {i : Nat} (hn : db.env.saulReg.length ≤ i + n) (g : Globals)
    (child : DbNode) : WalkEnds db ⟨g, .saul (linkAt db.env.saulReg.length i) .root, child⟩ :=
  walkEnds_links (fun dev => .saul dev .root) (fun i => .saul (some i) .device)
    (fun i child => next_saulRoot child i) (fun child => next_saulRoot_end child) n hn child

theorem walkEnds_netifRoot (n : Nat) {i : Nat} (hn : db.env.ifaces.length ≤ i + n) (g : Globals)
    (child : DbNode) : WalkEnds db ⟨g, .netif (linkAt db.env.ifaces.length i) .root, child⟩ :=
  walkEnds_links (fun iface => .netif iface .root) (fun i => .netif (some i) .iface)
    (fun i child => next_netifRoot child i) (fun child => next_netifRoot_end child) n hn child

/-! ### Neighbours -/

section Neighbours

variable (iface : Option Nat)

/-- With a neighbour, the measurements end behind the last one. -/
theorem walkEnds_qos_pos (n : Nat) {g : Globals} (hpos : g.numNeighbours ≠ 0)
    (hn : g.netifSubFieldCount.toNat + n = 4) (child : DbNode) :
    WalkEnds db ⟨g, .netif iface .qos, child⟩ := by
  induction n generalizing g with
  | zero => exact .last (next_qos_end child (UInt8.toNat_inj.mp hn) hpos) rfl
  | succ n ih =>
    have hmore : g.netifSubFieldCount < qosCount := toNat_lt_qosCount.mpr (by omega)
    refine .next (next_qos child hmore) (ih hpos ?_)
    show (g.netifSubFieldCount + 1).toNat + n = 4
    rw [uint8_add_one (by omega)]
    omega

/-- The measurements of a neighbour that has just been turned to. -/
theorem walkEnds_started {g : Globals} (hpos : g.numNeighbours ≠ 0)
    (hsub : g.netifSubFieldCount ≠ 1) (hmore : g.netifSubFieldCount < qosCount) (child : DbNode) :
    WalkEnds db ⟨g, .netif iface .neighbour, child⟩ := by
  have hlt := toNat_lt_qosCount.mp hmore
  refine .next (next_neighbour_qos child hpos hsub hmore) ?_
  exact walkEnds_qos_pos iface (4 - g.netifSubFieldCount.toNat) hpos (by omega) _

theorem walkEnds_next (g : Globals) (level : NetifLevel) {c : Cursor}
    (h : dbNodeGetNextChild db c = .ok (nextNeighbour g iface level)) : WalkEnds db c := by
  unfold nextNeighbour at h
  split_ifs at h with hzero
  · exact .last h rfl
  · exact .next h (walkEnds_started iface hzero (by simp) (by simp [qosCount]) _)

theorem walkEnds_neighbour (g : Globals) (child : DbNode) :
    WalkEnds db ⟨g, .netif iface .neighbour, child⟩ := by
  by_cases hzero : g.numNeighbours = 0
  · exact .last (next_neighbour_end child hzero) rfl
  · by_cases hmore : g.netifSubFieldCount < qosCount
    · by_cases hsub : g.netifSubFieldCount = 1
      · refine .next (next_neighbour_first child hzero hsub) ?_
        exact walkEnds_started iface (g := { g with netifSubFieldCount := 2 }) hzero (by simp)
          (by simp [qosCount]) _
      · exact walkEnds_started iface hzero hsub hmore child
    · exact walkEnds_next iface g .neighbour (next_neighbour_next child hzero hmore)

/-- Measurements behind the last one, or without a neighbour. -/
theorem walkEnds_qos (n : Nat) {g : Globals} (hn : 4 ≤ g.netifSubFieldCount.toNat + n)
    (child : DbNode) : WalkEnds db ⟨g, .netif iface .qos, child⟩ := by
  induction n generalizing g with
  | zero =>
    have hmore : ¬ g.netifSubFieldCount < qosCount := by
      rw [toNat_lt_qosCount]
      omega
    by_cases hend : g.netifSubFieldCount = qosCount ∧ g.numNeighbours ≠ 0
    · exact .last (next_qos_end child hend.1 hend.2) rfl
    · exact walkEnds_next iface g .qos (next_qos_next child hmore hend)
  | succ n ih =>
    by_cases hmore : g.netifSubFieldCount < qosCount
    · have hlt := toNat_lt_qosCount.mp hmore
      refine .next (next_qos child hmore) (ih ?_)
      show 4 ≤ (g.netifSubFieldCount + 1).toNat + n
      rw [uint8_add_one (by omega)]
      omega
    · by_cases hend : g.netifSubFieldCount = qosCount ∧ g.numNeighbours ≠ 0
      · exact .last (next_qos_end child hend.1 hend.2) rfl
      · exact walkEnds_next iface g .qos (next_qos_next child hmore hend)

/-- The fields of an interface, up to `neighbours`. -/
theorem walkEnds_netifField (n : Nat) {g : Globals} (hn : g.netifFieldCount.toNat + n = 4)
    (child : DbNode) : WalkEnds db ⟨g, .netif iface .field, child⟩ := by
  induction n generalizing g with
  | zero =>
    have hlast : g.netifFieldCount = netifCount - 1 := UInt8.toNat_inj.mp hn
    by_cases hzero : g.numNeighbours = 0
    · exact .last (next_netifField_end child hlast (Or.inr hzero)) rfl
    · cases iface with
      | none => exact .last (next_netifField_end child hlast (Or.inl rfl)) rfl
      | some i =>
        exact .next (next_netifField_neighbours child hlast hzero) (walkEnds_neighbour (some i) _ _)
  | succ n ih =>
    have hmore : g.netifFieldCount < netifCount - 1 := lt_last.mpr (by omega)
    refine .next (next_netifField child hmore) (ih ?_)
    show (g.netifFieldCount + 1).toNat + n = 4
    rw [uint8_add_one (by omega)]
    omega

end Neighbours

/-! ## Lookups -/

section Lookups

variable {cfg : Config} {env : Env}

theorem length_tableRows_le {node : DbNode} (hn : TableNode (.ofEnv cfg env) node) :
    (tableRows (.ofEnv cfg env) node).length ≤ 255 := by
  have htable := pathTable_ofEnv cfg env
  cases hn with
  | root idx =>
    rw [tableRows, List.length_mapIdx]
    exact htable.branches
  | branch subIdx he =>
    have hmem := List.mem_of_getElem? he
    simp only [tableRows, he, DbFlEntry.rows, List.length_append, List.length_mapIdx,
      List.length_map]
    rcases mem_dbIndex hmem with rfl | rfl | rfl | rfl <;>
      simp [boardEntry, runtimeEntry, networkEntry, saulEntry]
    split_ifs <;> simp
  | static he hs => simp [tableRows]

/-! ### Rows of a build -/

theorem tableRows_branch {flIdx : UInt8} {e : DbFlEntry}
    (he : (dbIndex cfg)[flIdx.toNat]? = some e) :
    tableRows (.ofEnv cfg env) (dbNewFlNode flIdx) = e.rows env flIdx := by
  have he' : (Db.ofEnv cfg env).dbIndex[flIdx.toNat]? = some e := he
  simp only [dbNewFlNode, flNodeInit, tableRows, he']
  rfl

/-- The rows of the root are the branches. -/
theorem branch_of_row {row : TableRow} (hrow : row ∈ tableRows (.ofEnv cfg env) dbGetRoot) :
    ∃ (flIdx : UInt8) (e : DbFlEntry), (dbIndex cfg)[flIdx.toNat]? = some e ∧
      row = ⟨e.branchName, .inner, dbNewFlNode flIdx⟩ := by
  obtain ⟨i, hi⟩ := List.mem_iff_getElem?.mp hrow
  rw [dbGetRoot, tableRows, List.getElem?_mapIdx, Option.map_eq_some_iff] at hi
  obtain ⟨e, he, rfl⟩ := hi
  have hlt := (pathTable_ofEnv cfg env).lt_branches he
  refine ⟨UInt8.ofNat i, e, ?_, rfl⟩
  rw [toNat_ofNat (by omega)]
  exact he

/-- The rows of a branch are its entries. -/
theorem entry_of_row {flIdx : UInt8} {e : DbFlEntry}
    (he : (dbIndex cfg)[flIdx.toNat]? = some e) {row : TableRow} (hrow : row ∈ e.rows env flIdx) :
    (∃ (subIdx : UInt8) (s : DbFlStaticEntry), e.staticEntries[subIdx.toNat]? = some s ∧
        row = ⟨s.name, s.type, .fl flIdx subIdx false⟩) ∨
      ∃ d ∈ e.dynamicEntries, row = ⟨d.getNodeFn.nodeName, .inner, d.getNodeFn.node env⟩ := by
  obtain ⟨i, hi⟩ := List.mem_iff_getElem?.mp hrow
  rcases rows_getElem? hi with ⟨s, hs, rfl⟩ | ⟨-, d, hd, rfl⟩
  · have hlt := (List.getElem?_eq_some_iff.mp hs).1
    have hentries := (pathTable_ofEnv cfg env).entries e (List.mem_of_getElem? he)
    refine Or.inl ⟨UInt8.ofNat i, s, ?_, rfl⟩
    rw [toNat_ofNat (by omega)]
    exact hs
  · exact Or.inr ⟨d, List.mem_of_getElem? hd, rfl⟩

/-- **From a sound node the children come to an end**, whatever the counters are in their range. -/
theorem walkEnds_of_sound {g : Globals} (hg : g.InRange) {node : DbNode}
    (h : Sound (.ofEnv cfg env) node) (hne : node ≠ .null) (child : DbNode) :
    WalkEnds (.ofEnv cfg env) ⟨g, node, child⟩ := by
  cases node with
  | null => exact absurd rfl hne
  | root idx =>
    have hn : TableNode (.ofEnv cfg env) (.root idx) := .root idx
    exact walkEnds_table hn (length_tableRows_le hn) 255 (k := idx)
      (by have := length_tableRows_le hn; omega) g child
  | fl flIdx subIdx isRoot =>
    obtain ⟨e, he, hs⟩ := h
    cases isRoot with
    | true =>
      have hn : TableNode (.ofEnv cfg env) (.fl flIdx subIdx true) := .branch subIdx he
      exact walkEnds_table hn (length_tableRows_le hn) 255 (k := subIdx)
        (by have := length_tableRows_le hn; omega) g child
    | false =>
      obtain ⟨s, hs⟩ := hs rfl
      exact .last (getNextChild_end (k := 0) (.static he hs) (by simp [tableRows]) g child) rfl
  | ps pid level =>
    cases level with
    | root => exact walkEnds_psRoot (env.kernelPidLast + 1) h (Nat.le_add_left _ _) g child
    | process =>
      obtain ⟨next, hnext, -, -⟩ := getNextPid_eq h.1 h.2.1
      exact .next (next_process child h.2.1 hg.fieldCount_lt hnext) (walkEnds_psField hg next _)
    | field => exact walkEnds_psField hg pid child
  | saul dev level =>
    cases level with
    | root =>
      cases dev with
      | none => exact .last (next_saulRoot_end child) rfl
      | some i =>
        exact .next (next_saulRoot child i) (walkEnds_saulRoot (i := i + 1) env.saulReg.length (by
          show env.saulReg.length ≤ _
          omega) g _)
    | device =>
      obtain ⟨i, -, rfl⟩ := h
      exact .next (next_device child hg.saulFieldCount)
        (.last (next_saulField _ hg.saulFieldCount) rfl)
    | field => exact .last (next_saulField child hg.saulFieldCount) rfl
  | netif iface level =>
    have hfield : ∀ (iface : Option Nat) (child : DbNode),
        WalkEnds (.ofEnv cfg env) ⟨g, .netif iface .field, child⟩ := by
      intro iface child
      have hlt : g.netifFieldCount.toNat < 5 := hg.netifFieldCount
      exact walkEnds_netifField iface (4 - g.netifFieldCount.toNat) (by omega) child
    cases level with
    | root =>
      cases iface with
      | none => exact .last (next_netifRoot_end child) rfl
      | some i =>
        exact .next (next_netifRoot child i) (walkEnds_netifRoot (i := i + 1) env.ifaces.length (by
          show env.ifaces.length ≤ _
          omega) g _)
    | iface =>
      obtain ⟨i, -, rfl⟩ := h
      exact .next (next_iface child hg.netifFieldCount) (hfield _ _)
    | field => exact hfield iface child
    | neighbour => exact walkEnds_neighbour iface g child
    | qos => exact walkEnds_qos iface 4 (by omega) child

variable {g₀ : Globals}

/-- What a lookup goes through. -/
structure Travels (db : Db) (g₀ : Globals) (c : Cursor) : Prop where
  steady : Steady db g₀ c
  range : c.g.InRange

theorem Travels.next (hfirst : env.FirstThread) {c c' : Cursor}
    (h : Travels (.ofEnv cfg env) g₀ c) (hnext : dbNodeGetNextChild (.ofEnv cfg env) c = .ok c') :
    Travels (.ofEnv cfg env) g₀ c' := by
  have hsteady : Outcome (fun _ => True) (Steady (.ofEnv cfg env) g₀) _ := h.steady.next hfirst
  exact ⟨hsteady.of_eq_ok hnext,
    ((keeps_inRange (dbIndex cfg)).calls env).child (childStep_of_ok hnext) h.range⟩

/-- **A search among children that come to an end.** -/
theorem WalkEnds.search (hfirst : env.FirstThread) {path : CString} {comp : List Char}
    (hcomp : comp ∈ pathComponents path) {c : Cursor} (h : WalkEnds (.ofEnv cfg env) c)
    (hc : Travels (.ofEnv cfg env) g₀ c) (nameBuf : NameBuf) :
    Ends (Broken (LongLookup env g₀ path))
      (fun r : Bool × Search => Travels (.ofEnv cfg env) g₀ r.2.cur ∧
        (r.1 = true → r.2.cur.child ≠ .null))
      (fun fuel => searchChild (.ofEnv cfg env) comp fuel ⟨c, nameBuf⟩) := by
  induction h generalizing nameBuf with
  | last hnext hnull =>
    refine .succ ?_
    simp only [searchChild, hnext, ok_bind, dbNodeIsNull, dbNodeGetType, hnull]
    exact .const ⟨hc.next hfirst hnext, by simp⟩
  | @next c c' hnext _ ih =>
    have hc' := hc.next hfirst hnext
    obtain ⟨type, htype⟩ := type_of_sound hc'.steady.sound.child c'.g
    refine .succ ?_
    simp only [searchChild, hnext, ok_bind, dbNodeIsNull_eq htype]
    by_cases hnull : type = .null
    · simp only [hnull, decide_true, if_true, pure_eq_ok]
      exact .const ⟨hc', by simp⟩
    · have hne : c'.child ≠ .null := by
        intro hchild
        rw [hchild] at htype
        exact hnull (Except.ok.inj htype).symm
      simp only [hnull, decide_false, Bool.false_eq_true, if_false]
      refine .step (broken_mono (hc'.steady.name hne nameBuf) Or.inl) fun b _ _ => ?_
      cases hcmp : Buf.memcmp comp b.chars with
      | none => exact .const (broken_bounds (Or.inr ⟨comp, hcomp, length_lt_of_memcmp hcmp⟩))
      | some eq =>
        cases eq with
        | true => exact .const ⟨hc', fun _ => hne⟩
        | false => exact ih hc' b

/-- The state between two components. -/
def Travelled (db : Db) (g₀ : Globals) (d : Descent) : Prop :=
  Travels db g₀ ⟨d.g, d.node, d.node⟩ ∧ Sound db d.node ∧ d.node ≠ .null

theorem ends_descend (hfirst : env.FirstThread) {path : CString} {comp : List Char}
    (hcomp : comp ∈ pathComponents path) {d : Descent} (hd : Travelled (.ofEnv cfg env) g₀ d) :
    Ends (fun stop => ∀ t, stop = .trap t → Broken (LongLookup env g₀ path) t)
      (Travelled (.ofEnv cfg env) g₀)
      (fun fuel => Dca.descend (.ofEnv cfg env) fuel d comp) := by
  obtain ⟨htravels, hsound, hne⟩ := hd
  have hwalk := walkEnds_of_sound htravels.range hsound hne d.node
  obtain ⟨r, hr, hout⟩ := hwalk.search hfirst hcomp htravels d.nameBuf
  refine ⟨searchOutcome r, hr.mono fun n hn => congrArg searchOutcome hn, ?_⟩
  cases r with
  | error t =>
    rintro t' ht
    obtain rfl := Stop.trap.inj ht
    exact hout
  | ok r =>
    obtain ⟨found, s⟩ := r
    obtain ⟨hcur, hfound⟩ := hout
    cases found with
    | false =>
      rintro t ht
      cases ht
    | true =>
      have hchild := hcur.steady.sound.child
      have hne' := hfound rfl
      have hsteady : Steady (.ofEnv cfg env) g₀ ⟨s.cur.g, s.cur.child, s.cur.child⟩ :=
        ⟨⟨hchild.walkable hne', hchild⟩, hcur.steady.neighbours⟩
      exact ⟨⟨hsteady, hcur.range⟩, hchild, hne'⟩

theorem ends_fold (hfirst : env.FirstThread) {path : CString} {comps : List (List Char)}
    (hcomps : ∀ comp ∈ comps, comp ∈ pathComponents path) {d : Descent}
    (hd : Travelled (.ofEnv cfg env) g₀ d) :
    Ends (fun stop => ∀ t, stop = .trap t → Broken (LongLookup env g₀ path) t)
      (Travelled (.ofEnv cfg env) g₀)
      (fun fuel => comps.foldlM (Dca.descend (.ofEnv cfg env) fuel) d) := by
  induction comps generalizing d with
  | nil => exact .const hd
  | cons comp comps ih =>
    obtain ⟨hcomp, hcomps⟩ := List.forall_mem_cons.mp hcomps
    simp only [List.foldlM_cons]
    exact (ends_descend hfirst hcomp hd).bind fun d' hd' => ih hcomps hd'

/-- **Every lookup comes to an end.** -/
theorem ends_find (hfirst : env.FirstThread) {g : Globals} (hg : g.InRange) (path : CString)
    (child : DbNode) (nameBuf : NameBuf) :
    Ends (Broken (LongLookup env g path)) (fun _ => True)
      (fun fuel => dbFindNodeByPath (.ofEnv cfg env) fuel g path child nameBuf) := by
  simp only [dbFindNodeByPath_eq_fold]
  have hsteady : Steady (.ofEnv cfg env) g ⟨g, dbGetRoot, dbGetRoot⟩ := ⟨⟨trivial, trivial⟩, rfl⟩
  have hstart : Travelled (.ofEnv cfg env) g (.start g) :=
    ⟨⟨hsteady, hg⟩, trivial, by simp [Descent.start, dbGetRoot]⟩
  obtain ⟨r, hr, hout⟩ := ends_fold hfirst (fun _ => id) hstart
  refine ⟨lookupResult r, hr.mono fun n hn => congrArg lookupResult hn, ?_⟩
  cases r with
  | ok d => trivial
  | error stop =>
    cases stop with
    | trap t => exact hout t rfl
    | notFound g' node => trivial

end Lookups

end Dca
