import Dca.Db.Devices
import Dca.Db.Fields

/-!
# Summary values against listings

The static entries of the branches count and add up what the kernel has with loops of their own. The
same can be counted and added up in what the dynamic entries list. The totals are exact, as they are in
C as long as no partial sum leaves `int32_t`.
-/

namespace Dca

open CLib

/-! ## The statement -/

section Statement

variable (db : Db)

/-- The value of a visit, if it is an integer with the name. -/
def Visit.intNamed (stack : Stack) (name : CString) (v : Visit) : Option Int :=
  match dbNodeGetType db v.g v.node, dbNodeGetName db v.g v.node stack.name,
      dbNodeGetIntValue db v.g v.node with
  | .ok .int, .ok nameBuf, .ok (_, value) => if nameBuf.str = name then some value else none
  | _, _, _ => none

/-- The value of a visit, if it is a text with the name. -/
def Visit.strNamed (stack : Stack) (name : CString) (v : Visit) : Option CString :=
  match dbNodeGetType db v.g v.node, dbNodeGetName db v.g v.node stack.name,
      dbNodeGetStrValue db v.g v.node stack.str (dcaShellStrbufSize - 1) with
  | .ok .str, .ok nameBuf, .ok (value, _) => if nameBuf.str = name then some value.str else none
  | _, _, _ => none

/-- The device that a node is for. -/
def Env.deviceOf (env : Env) : DbNode → Option SaulReg
  | .saul (some i) _ => env.saulReg[i]?
  | _ => none

/-- The devices of the category among some nodes. -/
def Env.numCategory (env : Env) (cat : UInt8) (items : List DbNode) : Nat :=
  (items.filterMap env.deviceOf).countP fun dev => dev.type &&& saulCatMask = cat

/-- The static entry of the branch is found under its path, and it has the value. -/
def HasValue (branch entry : String) (value : Int) : Prop :=
  ∃ node, FoundBy db [(CString.lit branch).chars, (CString.lit entry).chars] node ∧
    ∀ g, dbNodeGetIntValue db g node = .ok (g, value)

/-- The children of a node, in whatever surroundings they are taken. -/
def Children (node : DbNode) (items : List DbNode) : Prop :=
  DbNode.null ∉ items ∧ Enumerates db (fun _ => True) node items

/--
The visits of the traversal of a new `/runtime/ps` node give the same totals as the entries of the
branch.
-/
structure TotalsOf (stack : Stack) (forest : Forest Visit) : Prop where
  stackUsed : HasValue db "runtime" "stack_used"
    ((forest.preorder 0).filterMap fun v => v.2.intNamed db stack (.lit "stack used")).sum
  cpuLoad : HasValue db "runtime" "cpu_load"
    (((forest.preorder 0).filterMap fun v => v.2.strNamed db stack (.lit "state")).countP
      fun state => state = .lit "running" ∨ state = .lit "pending")

/-- The summary values agree with what is listed from a state on. -/
structure SummariesAgree (cfg : Config) (env : Env) (g : Globals) : Prop where
  processes : ∀ stack : Stack, ∃ forest,
    (∀ g' forest', TourTo (.ofEnv cfg env) stack.node g dbNewPsNode g' forest' ↔
      g' = g ∧ forest' = forest) ∧ TotalsOf (.ofEnv cfg env) stack forest
  devices : cfg.saul = true → ∃ items, Children (.ofEnv cfg env) (dbNewSaulNode env) items ∧
    HasValue (.ofEnv cfg env) "saul" "num_sensors" (env.numCategory saulCatSense items) ∧
    HasValue (.ofEnv cfg env) "saul" "num_actuators" (env.numCategory saulCatAct items)
  ifaces : cfg.network = true → ∃ items, Children (.ofEnv cfg env) (dbNewNetifNode env g).2 items ∧
    HasValue (.ofEnv cfg env) "network" "num_ifaces" items.length

end Statement

/-! ## The loops over the kernel -/

section Loops

variable (env : Env)

/-- The live threads in the order of their pids. -/
def Env.threads : List Thread := (env.pidsFrom kernelPidFirst).filterMap env.schedThreads

theorem foldThreads_eq {α : Type} (f : α → Thread → α) (init : α) :
    foldThreads env (fun acc _ p => f acc p) init = env.threads.foldl f init := by
  have hrange : List.range' kernelPidFirst env.kernelPidLast
      = List.range' kernelPidFirst (env.kernelPidLast + 1 - kernelPidFirst) := rfl
  have hthreads : env.threads
      = (List.range' kernelPidFirst env.kernelPidLast).filterMap env.schedThreads := by
    rw [Env.threads, Env.pidsFrom, ← hrange, List.filterMap_filter]
    congr 1
    funext pid
    cases env.schedThreads pid <;> rfl
  rw [hthreads, List.foldl_filterMap, foldThreads]
  congr 1
  funext acc pid
  cases env.schedThreads pid <;> rfl

/-- A loop that counts. -/
theorem foldl_count {α : Type} (P : α → Prop) [DecidablePred P] (l : List α) (init : Int) :
    l.foldl (fun n a => if P a then n + 1 else n) init = init + l.countP fun a => P a := by
  induction l generalizing init with
  | nil => simp
  | cons a l ih =>
    have hcons : (a :: l).countP (fun a => P a)
        = (l.countP fun a => P a) + if P a then 1 else 0 := by
      simp [List.countP_cons]
    rw [List.foldl_cons, ih, hcons]
    split_ifs <;> omega

theorem runtimeGetStackUsed_eq :
    runtimeGetStackUsed env = (env.threads.map fun p => p.stackSize - p.stackFree).sum := by
  rw [runtimeGetStackUsed, foldThreads_eq env fun used p => used + (p.stackSize - p.stackFree),
    List.sum_eq_foldl, List.foldl_map]

theorem runtimeGetCpuLoad_eq :
    runtimeGetCpuLoad env
      = env.threads.countP fun p => p.status = .running ∨ p.status = .pending := by
  rw [runtimeGetCpuLoad, foldThreads_eq env fun load p =>
    if p.status = .running ∨ p.status = .pending then load + 1 else load, foldl_count, Int.zero_add]

theorem countCategory_eq (cat : UInt8) :
    countCategory env cat = env.saulReg.countP fun dev => dev.type &&& saulCatMask = cat := by
  rw [countCategory, foldl_count (fun dev : SaulReg => dev.type &&& saulCatMask = cat), Int.zero_add]

theorem numIfacesLoop_eq (n i : Nat) {prev : Option Nat} (res : Int)
    (hprev : env.netifIter prev = linkAt env.ifaces.length i) (hn : i + n = env.ifaces.length) :
    numIfacesLoop env (n + 1) prev res = res + n := by
  induction n generalizing i prev res with
  | zero =>
    rw [numIfacesLoop, hprev, linkAt_of_le (by omega)]
    simp
  | succ n ih =>
    rw [numIfacesLoop, hprev, linkAt_of_lt (by omega)]
    dsimp only
    rw [ih (i + 1) (res + 1) rfl (by omega)]
    omega

theorem networkGetNumIfaces_eq : networkGetNumIfaces env = env.ifaces.length := by
  rw [networkGetNumIfaces, numIfacesLoop_eq env env.ifaces.length 0 0 rfl (Nat.zero_add _),
    Int.zero_add]

end Loops

/-! ## What the processes show -/

section Visits

variable {db : Db} {stack : Stack} {name : CString} {g : Globals} (p : db.env.Process)

theorem intNamed_of_type {v : Visit} {type : DbNodeType}
    (htype : dbNodeGetType db v.g v.node = .ok type) (hne : type ≠ .int) :
    v.intNamed db stack name = none := by
  unfold Visit.intNamed
  rw [htype]
  cases type with
  | int => exact absurd rfl hne
  | null | inner | float | str => rfl

theorem strNamed_of_type {v : Visit} {type : DbNodeType}
    (htype : dbNodeGetType db v.g v.node = .ok type) (hne : type ≠ .str) :
    v.strNamed db stack name = none := by
  unfold Visit.strNamed
  rw [htype]
  cases type with
  | str => exact absurd rfl hne
  | null | inner | float | int => rfl

theorem intNamed_psInt {field : String} (hname : psFieldName g.fieldCount = some field)
    (hint : psNodeGettype g .field = .int) {value : Int}
    (hvalue : psNodeGetintValue db.env g p.pid = .ok value) :
    Visit.intNamed db stack name ⟨g, .ps p.pid .field⟩
      = if .lit field = name then some value else none := by
  have htype : dbNodeGetType db g (.ps p.pid .field) = .ok .int := congrArg Except.ok hint
  have hget : dbNodeGetIntValue db g (.ps p.pid .field) = .ok (g, value) := by
    rw [intValue_ps htype, hvalue]
    rfl
  have hnames : Names db g (.ps p.pid .field) (.lit field) := names_psField p.last hname
  obtain ⟨b, hb, hs⟩ := hnames stack.name
  simp only [Visit.intNamed, htype, hget, hb, hs.str_eq]

theorem strNamed_state (hone : g.fieldCount = 1) :
    Visit.strNamed db stack (.lit "state") ⟨g, .ps p.pid .field⟩
      = some (.lit (stateNames p.thread.status)) := by
  have hname : psFieldName g.fieldCount = some "state" := by
    rw [hone]
    rfl
  obtain ⟨value, hget, hvalue⟩ := strValue_state p hone
    (by decide : dbNodeNameMax ≤ dcaShellStrbufSize) stack.str (dcaShellStrbufSize - 1)
  have hnames : Names db g (.ps p.pid .field) (.lit "state") := names_psField p.last hname
  obtain ⟨b, hb, hs⟩ := hnames stack.name
  simp only [Visit.strNamed, strType_state hone, hget, hb, hs.str_eq, hvalue.str_eq, if_true]

/-- The fields of a process, by the counter. -/
theorem filterMap_psFields {β : Type} (f : Visit → Option β) (hzero : g.fieldCount = 0)
    (depth : Nat) :
    ((psFieldForest p.pid 4 g).preorder depth).filterMap (fun v => f v.2)
      = ([0, 1, 2, 3, 4] : List Int8).filterMap fun k =>
        f ⟨{ g with fieldCount := k }, .ps p.pid .field⟩ := by
  obtain ⟨fieldCount, _, _, _, _, _⟩ := g
  obtain rfl : fieldCount = 0 := hzero
  rfl

/-- Of the fields of a process one is the stack that is used. -/
theorem stackUsed_psFields (hzero : g.fieldCount = 0) (depth : Nat) :
    ((psFieldForest p.pid 4 g).preorder depth).filterMap
        (fun v => v.2.intNamed db stack (.lit "stack used"))
      = [p.thread.stackSize - p.thread.stackFree] := by
  have hint : ∀ (k : Int8) (field : String) (value : Int), psFieldName k = some field →
      psNodeGettype { g with fieldCount := k } .field = .int →
      psNodeGetintValue db.env { g with fieldCount := k } p.pid = .ok value →
      Visit.intNamed db stack (.lit "stack used") ⟨{ g with fieldCount := k }, .ps p.pid .field⟩
        = if CString.lit field = .lit "stack used" then some value else none :=
    fun k field value hname htype hvalue => intNamed_psInt p hname htype hvalue
  have hstate : Visit.intNamed db stack (.lit "stack used")
      ⟨{ g with fieldCount := 1 }, .ps p.pid .field⟩ = none :=
    intNamed_of_type (strType_state rfl p.pid) (by decide)
  rw [filterMap_psFields p _ hzero]
  simp only [List.filterMap_cons, hstate,
    hint 0 _ _ rfl rfl (psNodeGetintValue_eq p _), hint 2 _ _ rfl rfl (psNodeGetintValue_eq p _),
    hint 3 _ _ rfl rfl (psNodeGetintValue_eq p _), hint 4 _ _ rfl rfl (psNodeGetintValue_eq p _)]
  rfl

/-- And one is its state. -/
theorem state_psFields (hzero : g.fieldCount = 0) (depth : Nat) :
    ((psFieldForest p.pid 4 g).preorder depth).filterMap
        (fun v => v.2.strNamed db stack (.lit "state"))
      = [.lit (stateNames p.thread.status)] := by
  have hint : ∀ k : Int8, psNodeGettype { g with fieldCount := k } .field = .int →
      Visit.strNamed db stack (.lit "state") ⟨{ g with fieldCount := k }, .ps p.pid .field⟩ = none :=
    fun k htype => strNamed_of_type (congrArg Except.ok htype) (by decide)
  have hstate : Visit.strNamed db stack (.lit "state")
      ⟨{ g with fieldCount := 1 }, .ps p.pid .field⟩ = some (.lit (stateNames p.thread.status)) :=
    strNamed_state p rfl
  rw [filterMap_psFields p _ hzero]
  simp only [List.filterMap_cons, hstate, hint 0 rfl, hint 2 rfl, hint 3 rfl, hint 4 rfl,
    List.filterMap_nil]

/-- **What each process shows once**, the processes show in their order. -/
theorem filterMap_psForest {β : Type} {f : Visit → Option β} {shown : Thread → β}
    (hzero : g.fieldCount = 0) (hnode : ∀ p : db.env.Process, f ⟨g, p.node⟩ = none)
    (hfields : ∀ (p : db.env.Process) (depth : Nat),
      ((psFieldForest p.pid 4 g).preorder depth).filterMap (fun v => f v.2) = [shown p.thread])
    {pids : List Nat} (hlive : ∀ pid ∈ pids, db.env.Live pid) (depth : Nat) :
    ((psForest pids g).preorder depth).filterMap (fun v => f v.2)
      = (pids.filterMap db.env.schedThreads).map shown := by
  induction pids with
  | nil => rfl
  | cons pid pids ih =>
    obtain ⟨⟨hfirst, hlast, hsome⟩, hrest⟩ := List.forall_mem_cons.mp hlive
    obtain ⟨thread, hthread⟩ := Option.isSome_iff_exists.mp hsome
    let p : db.env.Process := ⟨pid, thread, hfirst, hlast, hthread⟩
    have hsame : { g with fieldCount := 0 } = g := by rw [← hzero]
    have hleft : fieldsLeft g = 4 := by
      rw [fieldsLeft, hzero]
      rfl
    have hhead : f ⟨g, .ps pid .process⟩ = none := hnode p
    have hmine := hfields p (depth + 1)
    rw [psForest, hsame, hleft, Forest.preorder, List.filterMap_cons, hhead, List.filterMap_append,
      hmine, ih hrest, List.filterMap_cons, hthread]
    rfl

end Visits

/-! ## The static entries -/

section Entries

variable {cfg : Config} {env : Env}

theorem hasValue_entry {i j : Nat} {e : DbFlEntry} {s : DbFlStaticEntry} {f : Env → Int}
    (he : (dbIndex cfg)[i]? = some e) (hs : e.staticEntries[j]? = some s)
    (htypes : ∀ s' ∈ e.staticEntries.take (j + 1), s'.type ≠ .null) (htype : s.type = .int)
    (hf : s.getValueFn = .int f) {branch entry : String}
    (hbranch : e.branchName.chars = (CString.lit branch).chars)
    (hentry : s.name.chars = (CString.lit entry).chars) :
    HasValue (.ofEnv cfg env) branch entry (f env) := by
  have htable := pathTable_ofEnv cfg env
  have hi : i < 256 := Nat.lt_succ_of_lt (htable.lt_branches he)
  have hj : j < 256 := by
    have hlt := (List.getElem?_eq_some_iff.mp hs).1
    have hle := htable.entries e (List.mem_of_getElem? he)
    omega
  have hfound := htable.foundBy_entry he hs htypes
  rw [hbranch, hentry] at hfound
  refine ⟨_, hfound, fun g => ?_⟩
  have he' : (Db.ofEnv cfg env).dbIndex[(UInt8.ofNat i).toNat]? = some e := by
    rwa [toNat_ofNat hi]
  have hs' : e.staticEntries[(UInt8.ofNat j).toNat]? = some s := by
    rwa [toNat_ofNat hj]
  exact static_int he' hs' htype hf g

theorem hasValue_stackUsed :
    HasValue (.ofEnv cfg env) "runtime" "stack_used" (runtimeGetStackUsed env) :=
  hasValue_entry (i := 1) (j := 3) rfl rfl (by simp [runtimeEntry]) rfl rfl rfl rfl

theorem hasValue_cpuLoad :
    HasValue (.ofEnv cfg env) "runtime" "cpu_load" (runtimeGetCpuLoad env) :=
  hasValue_entry (i := 1) (j := 0) rfl rfl (by simp [runtimeEntry]) rfl rfl rfl rfl

theorem hasValue_numIfaces (hnetwork : cfg.network = true) :
    HasValue (.ofEnv cfg env) "network" "num_ifaces" (networkGetNumIfaces env) := by
  have he : (dbIndex cfg)[2]? = some networkEntry := by simp [dbIndex, hnetwork]
  exact hasValue_entry (j := 0) he rfl (by simp [networkEntry]) rfl rfl rfl rfl

theorem saulEntry_mem (hsaul : cfg.saul = true) : ∃ i : Nat, (dbIndex cfg)[i]? = some saulEntry := by
  refine List.mem_iff_getElem?.mp ?_
  simp [dbIndex, hsaul]

theorem hasValue_numSensors (hsaul : cfg.saul = true) :
    HasValue (.ofEnv cfg env) "saul" "num_sensors" (saulGetNumSensors env) := by
  obtain ⟨i, he⟩ := saulEntry_mem hsaul
  exact hasValue_entry (j := 0) he rfl (by simp [saulEntry]) rfl rfl rfl rfl

theorem hasValue_numActuators (hsaul : cfg.saul = true) :
    HasValue (.ofEnv cfg env) "saul" "num_actuators" (saulGetNumActuators env) := by
  obtain ⟨i, he⟩ := saulEntry_mem hsaul
  exact hasValue_entry (j := 1) he rfl (by simp [saulEntry]) rfl rfl rfl rfl

end Entries

/-! ## Processes -/

section Processes

variable {cfg : Config} {env : Env} {g : Globals}

theorem state_running (status : ThreadStatus) :
    (CString.lit (stateNames status) = .lit "running" ∨
        CString.lit (stateNames status) = .lit "pending")
      ↔ status = .running ∨ status = .pending := by
  cases status <;> decide

theorem stackUsed_processes (db : Db) (stack : Stack) (hzero : g.fieldCount = 0) :
    ((psForest (db.env.pidsFrom kernelPidFirst) g).preorder 0).filterMap
        (fun v => v.2.intNamed db stack (.lit "stack used"))
      = db.env.threads.map fun p => p.stackSize - p.stackFree := by
  refine filterMap_psForest hzero (fun p => ?_) (fun p => stackUsed_psFields p hzero)
    (fun pid hmem => mem_pidsFrom.mp hmem) 0
  have htype : dbNodeGetType db g p.node = .ok .inner := rfl
  exact intNamed_of_type htype (by decide)

theorem state_processes (db : Db) (stack : Stack) (hzero : g.fieldCount = 0) :
    ((psForest (db.env.pidsFrom kernelPidFirst) g).preorder 0).filterMap
        (fun v => v.2.strNamed db stack (.lit "state"))
      = db.env.threads.map fun p => .lit (stateNames p.status) := by
  refine filterMap_psForest hzero (fun p => ?_) (fun p => state_psFields p hzero)
    (fun pid hmem => mem_pidsFrom.mp hmem) 0
  have htype : dbNodeGetType db g p.node = .ok .inner := rfl
  exact strNamed_of_type htype (by decide)

theorem totalsOf_processes (stack : Stack) (hzero : g.fieldCount = 0) :
    TotalsOf (.ofEnv cfg env) stack
      (psForest ((Db.ofEnv cfg env).env.pidsFrom kernelPidFirst) g) where
  stackUsed := by
    rw [stackUsed_processes (.ofEnv cfg env) stack hzero, ← runtimeGetStackUsed_eq]
    exact hasValue_stackUsed
  cpuLoad := by
    rw [state_processes (.ofEnv cfg env) stack hzero, List.countP_map]
    simp only [Function.comp_def, state_running]
    rw [← runtimeGetCpuLoad_eq]
    exact hasValue_cpuLoad

/-- The traversal of a new `/runtime/ps` node. -/
theorem tourTo_newPs (db : Db) (junk : DbNode) (hfirst : db.env.FirstThread)
    (hzero : g.fieldCount = 0) :
    TourTo db junk g dbNewPsNode g (psForest (db.env.pidsFrom kernelPidFirst) g) :=
  .folder rfl (toursFrom_processes db.env.kernelPidLast (Or.inl hfirst)
    (Nat.lt_add_of_pos_left (by decide)) hzero junk)

end Processes

/-! ## Devices and interfaces -/

section Lists

variable {cfg : Config} {env : Env} {db : Db}

theorem supplies_ifaces (n : Nat) {i : Nat} (hn : i + n = db.env.ifaces.length) :
    Supplies (takeChild db) (fun _ => True) .null (.netif (linkAt db.env.ifaces.length i) .root)
      ((List.range' i n).map fun j => .netif (some j) .iface) :=
  supplies_links (fun iface => .netif iface .root) (fun i => .netif (some i) .iface)
    (fun i around => takeChild_eq (next_netifRoot around.2 i))
    (fun around => takeChild_eq (next_netifRoot_end around.2)) n hn

/-- The devices of the nodes in a list of devices. -/
theorem filterMap_deviceOf (n : Nat) {i : Nat} (hn : i + n = env.saulReg.length) :
    ((List.range' i n).map fun j => DbNode.saul (some j) .device).filterMap env.deviceOf
      = env.saulReg.drop i := by
  induction n generalizing i with
  | zero =>
    rw [List.drop_eq_nil_of_le (by omega)]
    rfl
  | succ n ih =>
    have hlt : i < env.saulReg.length := by omega
    have hhead : env.deviceOf (.saul (some i) .device) = some env.saulReg[i] :=
      List.getElem?_eq_getElem hlt
    rw [List.range'_succ, List.map_cons, List.filterMap_cons, hhead, ih (by omega),
      List.drop_eq_getElem_cons hlt]

theorem children_devices (db : Db) :
    Children db (dbNewSaulNode db.env)
      ((List.range' 0 db.env.saulReg.length).map fun i => .saul (some i) .device) :=
  ⟨by simp, enumerates_of_supplies (supplies_devices _ (Nat.zero_add _))⟩

theorem numCategory_devices (env : Env) (cat : UInt8) :
    (env.numCategory cat ((List.range' 0 env.saulReg.length).map fun i => .saul (some i) .device)
      : Int) = countCategory env cat := by
  rw [Env.numCategory, filterMap_deviceOf _ (Nat.zero_add _), List.drop_zero, countCategory_eq]

theorem children_ifaces (db : Db) (g : Globals) :
    Children db (dbNewNetifNode db.env g).2
      ((List.range' 0 db.env.ifaces.length).map fun i => .netif (some i) .iface) :=
  ⟨by simp, enumerates_of_supplies (supplies_ifaces _ (Nat.zero_add _))⟩

end Lists

/--
**The summary values agree with the listings**, for every kernel with a thread in the first slot, and
for every state with `_field_count` at 0.
-/
theorem summaries_agree (cfg : Config) (env : Env) (hfirst : env.FirstThread) (g : Globals)
    (hzero : g.fieldCount = 0) : SummariesAgree cfg env g where
  processes := by
    intro stack
    have htour := tourTo_newPs (.ofEnv cfg env) stack.node hfirst hzero
    refine ⟨_, fun g' forest' => ⟨fun htour' => ?_, ?_⟩, totalsOf_processes stack hzero⟩
    · obtain ⟨rfl, rfl⟩ := htour.unique htour'
      exact ⟨rfl, rfl⟩
    · rintro ⟨rfl, rfl⟩
      exact htour
  devices := by
    intro hsaul
    refine ⟨_, children_devices (.ofEnv cfg env), ?_, ?_⟩
    · exact (numCategory_devices env saulCatSense).symm ▸ hasValue_numSensors hsaul
    · exact (numCategory_devices env saulCatAct).symm ▸ hasValue_numActuators hsaul
  ifaces := by
    intro hnetwork
    refine ⟨_, children_ifaces (.ofEnv cfg env) g, ?_⟩
    rw [List.length_map, List.length_range']
    exact networkGetNumIfaces_eq env ▸ hasValue_numIfaces hnetwork

theorem summaries_agree_small : SummariesAgree {} smallEnv {} :=
  summaries_agree {} smallEnv ⟨by decide, by decide, by decide⟩ {} rfl

end Dca
