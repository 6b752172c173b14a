import Dca.Db.Devices
import Dca.Db.Fields
import Dca.Db.Ifaces
import Dca.Db.Ways
import Dca.Lib.Objects

/-!
# Asking for leaves

All processes share one position among their fields, and a lookup begins where an earlier one has
left it. It runs to the end, where the position becomes 0, but not around: a field in front of the
position is not found. The fields of interfaces and devices are asked from their first one on. So a
sequence of questions is answered as by a machine whose only variable is the position.
-/

namespace Dca

open CLib

/-! ## Questions -/

/-- A field of a live thread. -/
structure Env.ProcessField (env : Env) where
  process : env.Process
  field : Int8
  inRange : field ∈ ([0, 1, 2, 3, 4] : List Int8)

namespace Env.ProcessField

variable {env : Env} (f : env.ProcessField)

/-- `/runtime/ps/<thread>/<field>` -/
def path : CString :=
  slashPath [.lit "runtime", .lit "ps", f.process.thread.name, psFieldLabel f.field]

/-- The value of the field as a text. -/
def text : CString :=
  if f.field = 0 then intText f.process.pid
  else if f.field = 1 then .lit (stateNames f.process.thread.status)
  else if f.field = 2 then intText f.process.thread.priority
  else if f.field = 3 then intText f.process.thread.stackSize
  else intText (f.process.thread.stackSize - f.process.thread.stackFree)

end Env.ProcessField

/-- A field of an interface that is a leaf. -/
structure Env.IfaceField (env : Env) where
  index : Nat
  iface : Netif
  iface_eq : env.ifaces[index]? = some iface
  field : UInt8
  inRange : field ∈ ([0, 1, 2, 3] : List UInt8)

namespace Env.IfaceField

variable {env : Env} (f : env.IfaceField)

/-- `/network/netif/<interface>/<field>` -/
def path : CString :=
  slashPath [.lit "network", .lit "netif", f.iface.name, netifFieldLabel f.field]

/-- The value of the field as a text. The neighbours are counted in eight bits. -/
def text : CString :=
  if f.field = 0 then intText f.iface.id
  else if f.field = 1 then f.iface.addrText env
  else if f.field = 2 then f.iface.linkText
  else intText ((env.nibNc f.iface.id).length % 256 : Nat)

end Env.IfaceField

/-- The class of a device that fits into the array of the shell. -/
structure Env.DeviceClass (env : Env) where
  index : Nat
  reg : SaulReg
  reg_eq : env.saulReg[index]? = some reg
  short : (env.saulClassToStr reg.type).length < dcaShellStrbufSize

namespace Env.DeviceClass

variable {env : Env} (d : env.DeviceClass)

/-- `saul/devices/<device>/class` -/
def path : CString := classPath d.reg.name

def text : CString := env.saulClassToStr d.reg.type

end Env.DeviceClass

/-- What `_dcaq` prints for a leaf. -/
def Answer.text {n : Nat} : Answer n → Option CString
  | .value buf _ => some buf.str
  | .notFound | .children _ | .invalid => none

/-- A question with `_dcaq`. -/
def askLeaf (db : Db) (stack : Stack) (fuel : Nat) (g : Globals) (path : CString) :
    Res (Globals × Option CString) := do
  let (g, answer) ← dcaq db stack fuel g path
  return (g, answer.text)

/-- The machine of the position: a field is found from the position on, and the position stays there. -/
def askField {env : Env} (k : Int8) (f : env.ProcessField) : Int8 × Option CString :=
  if k ≤ f.field then (f.field, some f.text) else (0, none)

/-! ## The search among the fields -/

section Positions

variable {x j : Int8}

theorem psFieldName_isSome (hx : x ∈ ([0, 1, 2, 3, 4] : List Int8)) : (psFieldName x).isSome := by
  simp only [List.mem_cons, List.not_mem_nil, or_false] at hx
  rcases hx with rfl | rfl | rfl | rfl | rfl <;> rfl

/-- No name of a field begins another one. -/
theorem psFieldLabel_apart (hx : x ∈ ([0, 1, 2, 3, 4] : List Int8))
    (hj : j ∈ ([0, 1, 2, 3, 4] : List Int8)) (hne : x ≠ j) :
    ¬ (psFieldLabel j).chars <+: (psFieldLabel x).chars := by
  obtain ⟨n, hn⟩ := List.getElem?_of_mem hx
  obtain ⟨m, hm⟩ := List.getElem?_of_mem hj
  refine siblingNames_psFields.not_begins (i := m) (j := n) ?_ ?_ ?_
  · rw [List.getElem?_map, hm, Option.map_some]
  · rw [List.getElem?_map, hn, Option.map_some]
  · rintro rfl
    exact hne (Option.some.inj (hn.symm.trans hm))

/-- The position behind one that is not the last. -/
theorem psField_add_one (hx : x ∈ ([0, 1, 2, 3] : List Int8)) :
    x ≠ psCount - 1 ∧ x + 1 ∈ ([0, 1, 2, 3, 4] : List Int8) ∧ x < x + 1 := by
  simp only [List.mem_cons, List.not_mem_nil, or_false] at hx
  rcases hx with rfl | rfl | rfl | rfl <;> decide

theorem psField_le_four (hx : x ∈ ([0, 1, 2, 3, 4] : List Int8)) : x ≤ 4 := by
  simp only [List.mem_cons, List.not_mem_nil, or_false] at hx
  rcases hx with rfl | rfl | rfl | rfl | rfl <;> decide

/-- Between two positions that follow each other there is none. -/
theorem psField_lt_iff (hx : x ∈ ([0, 1, 2, 3] : List Int8)) (hne : x + 1 ≠ j) :
    x + 1 < j ↔ x < j := by
  have hadd : (x + 1).toInt = x.toInt + 1 := by
    simp only [List.mem_cons, List.not_mem_nil, or_false] at hx
    rcases hx with rfl | rfl | rfl | rfl <;> rfl
  rw [Int8.lt_iff_toInt_lt, Int8.lt_iff_toInt_lt, hadd]
  rw [ne_eq, ← Int8.toInt_inj, hadd] at hne
  omega

end Positions

section Search

variable {db : Db}

/-- A child with another name is passed over. -/
theorem Offers.passed {c c₁ : Cursor} {name : CString} {comp : List Char} (hcomp : nul ∉ comp)
    (hnext : dbNodeGetNextChild db c = .ok c₁) (hchild : Offers db c₁ name)
    (hother : ¬ comp <+: name.chars) {E : Trap → Prop} {Q : Bool × Search → Prop}
    (hrest : ∀ b, Ends E Q fun fuel => searchChild db comp fuel ⟨c₁, b⟩) (nameBuf : NameBuf) :
    Ends E Q fun fuel => searchChild db comp fuel ⟨c, nameBuf⟩ := by
  obtain ⟨b, hb, hs⟩ := hchild.names nameBuf
  refine .succ ?_
  simp only [searchChild, hnext, ok_bind, hchild.notNull, Bool.false_eq_true, if_false, hb,
    hs.memcmp_eq hcomp, hother, decide_false, inBounds]
  exact hrest b

/-- A child with the name is found. -/
theorem Offers.taken {c c₁ : Cursor} {name : CString} (hnext : dbNodeGetNextChild db c = .ok c₁)
    (hchild : Offers db c₁ name) {E : Trap → Prop} {Q : Bool × Search → Prop}
    (hfound : ∀ b, Q (true, ⟨c₁, b⟩)) (nameBuf : NameBuf) :
    Ends E Q fun fuel => searchChild db name.chars fuel ⟨c, nameBuf⟩ := by
  obtain ⟨b, hb, hs⟩ := hchild.names nameBuf
  have hself : name.chars <+: name.chars := List.prefix_refl _
  refine .succ ?_
  simp only [searchChild, hnext, ok_bind, hchild.notNull, Bool.false_eq_true, if_false, hb,
    hs.memcmp_eq name.noNul, hself, decide_true, inBounds, if_true, pure_eq_ok]
  exact .const (hfound b)

/-- Behind the last child nothing is found. -/
theorem ends_nothing {c c₁ : Cursor} {comp : List Char} (hnext : dbNodeGetNextChild db c = .ok c₁)
    (hnull : c₁.child = .null) {E : Trap → Prop} {Q : Bool × Search → Prop}
    (hmissed : ∀ b, Q (false, ⟨c₁, b⟩)) (nameBuf : NameBuf) :
    Ends E Q fun fuel => searchChild db comp fuel ⟨c, nameBuf⟩ := by
  have hend : dbNodeIsNull db c₁.g c₁.child = .ok true := by
    rw [hnull]
    rfl
  refine .succ ?_
  simp only [searchChild, hnext, ok_bind, hend, if_true, pure_eq_ok]
  exact .const (hmissed nameBuf)

variable {pid : Nat} (hlive : db.env.Live pid) (next : Nat) (g : Globals)
include hlive

/-- The field at the position `x`. -/
theorem offers_psField {x : Int8} (hx : x ∈ ([0, 1, 2, 3, 4] : List Int8)) (node : DbNode) :
    Offers db ⟨{ g with fieldCount := x }, node, .ps pid .field⟩ (psFieldLabel x) := by
  obtain ⟨field, hf⟩ := Option.isSome_iff_exists.mp (psFieldName_isSome hx)
  refine ⟨?_, ?_⟩
  · show Except.ok (decide (psNodeGettype { g with fieldCount := x } .field = .null)) = _
    rw [psNodeGettype_field]
    split_ifs <;> rfl
  · have hlabel : psFieldLabel x = .lit field := by rw [psFieldLabel, hf, Option.getD_some]
    rw [hlabel]
    exact names_psField (g := { g with fieldCount := x }) hlive.2.1 hf

/-- How a search for the field `j` ends. -/
def FieldSearch (g : Globals) (pid : Nat) (j : Int8) (found : Bool) (r : Bool × Search) : Prop :=
  r.1 = found ∧
    if found then r.2.cur.g = { g with fieldCount := j } ∧ r.2.cur.child = .ps pid .field
    else r.2.cur.g = { g with fieldCount := 0 }

/-- The search after the field at the position `x`, if it is known after the next one. -/
theorem ends_field_step {j x : Int8} (hj : j ∈ ([0, 1, 2, 3, 4] : List Int8))
    (hx : x ∈ ([0, 1, 2, 3] : List Int8))
    (hrest : ∀ b, Ends (fun _ => False) (FieldSearch g pid j (x + 1 < j))
      fun fuel => searchChild db (psFieldLabel j).chars fuel
        ⟨⟨{ g with fieldCount := x + 1 }, .ps next .field, .ps pid .field⟩, b⟩) (b : NameBuf) :
    Ends (fun _ => False) (FieldSearch g pid j (x < j))
      fun fuel => searchChild db (psFieldLabel j).chars fuel
        ⟨⟨{ g with fieldCount := x }, .ps next .field, .ps pid .field⟩, b⟩ := by
  obtain ⟨hlast, hx', hlt⟩ := psField_add_one hx
  have hnext : dbNodeGetNextChild db
      ⟨{ g with fieldCount := x }, .ps next .field, .ps pid .field⟩
      = .ok ⟨{ g with fieldCount := x + 1 }, .ps next .field, .ps pid .field⟩ :=
    next_psField (g := { g with fieldCount := x }) (.ps pid .field) hlast
  have hoffers := offers_psField hlive g hx' (.ps next .field)
  by_cases hxj : x + 1 = j
  · subst hxj
    refine hoffers.taken hnext (fun b => ?_) b
    rw [decide_eq_true hlt]
    exact ⟨rfl, rfl, rfl⟩
  · have hother := psFieldLabel_apart hx' hj hxj
    refine hoffers.passed (psFieldLabel j).noNul hnext hother (fun b => ?_) b
    rw [← decide_eq_decide.mpr (psField_lt_iff hx hxj)]
    exact hrest b

/-- The search after the field at the position `x`. -/
theorem ends_field {j x : Int8} (hj : j ∈ ([0, 1, 2, 3, 4] : List Int8))
    (hx : x ∈ ([0, 1, 2, 3, 4] : List Int8)) (b : NameBuf) :
    Ends (fun _ => False) (FieldSearch g pid j (x < j))
      fun fuel => searchChild db (psFieldLabel j).chars fuel
        ⟨⟨{ g with fieldCount := x }, .ps next .field, .ps pid .field⟩, b⟩ := by
  have hfour : ∀ b, Ends (fun _ => False) (FieldSearch g pid j ((4 : Int8) < j))
      fun fuel => searchChild db (psFieldLabel j).chars fuel
        ⟨⟨{ g with fieldCount := 4 }, .ps next .field, .ps pid .field⟩, b⟩ := by
    intro b
    have hnone : ¬ (4 : Int8) < j := Int8.not_lt.mpr (psField_le_four hj)
    refine ends_nothing (next_psField_end (g := { g with fieldCount := 4 }) (.ps pid .field) rfl) rfl
      (fun b => ?_) b
    rw [decide_eq_false hnone]
    exact ⟨rfl, rfl⟩
  have hthree := ends_field_step hlive next g hj (x := 3) (by decide) hfour
  have htwo := ends_field_step hlive next g hj (x := 2) (by decide) hthree
  have hone := ends_field_step hlive next g hj (x := 1) (by decide) htwo
  have hzero := ends_field_step hlive next g hj (x := 0) (by decide) hone
  simp only [List.mem_cons, List.not_mem_nil, or_false] at hx
  rcases hx with rfl | rfl | rfl | rfl | rfl
  · exact hzero b
  · exact hone b
  · exact htwo b
  · exact hthree b
  · exact hfour b

/-- **The search among the fields of a process**, from the position `k` on. -/
theorem ends_process_field {j k : Int8} (hj : j ∈ ([0, 1, 2, 3, 4] : List Int8))
    (hk : g.fieldCount = k) (hkr : k ∈ ([0, 1, 2, 3, 4] : List Int8)) (child : DbNode) (b : NameBuf) :
    Ends (fun _ => False) (FieldSearch g pid j (k ≤ j))
      fun fuel => searchChild db (psFieldLabel j).chars fuel ⟨⟨g, .ps pid .process, child⟩, b⟩ := by
  obtain ⟨next, hnext, -, -⟩ := getNextPid_eq hlive.1 hlive.2.1
  have hlt : k < psCount := Int8.lt_of_le_of_lt (psField_le_four hkr) (by decide)
  have hfirst : dbNodeGetNextChild db ⟨g, .ps pid .process, child⟩
      = .ok ⟨{ g with fieldCount := k }, .ps next .field, .ps pid .field⟩ := by
    rw [next_process child hlive.2.1 (by rw [hk]; exact hlt) hnext, ← hk]
  have hoffers := offers_psField hlive g hkr (.ps next .field)
  by_cases hkj : k = j
  · subst hkj
    refine hoffers.taken hfirst (fun b => ?_) b
    rw [decide_eq_true (Int8.le_refl k)]
    exact ⟨rfl, rfl, rfl⟩
  · have hother := psFieldLabel_apart hkr hj hkj
    have horder : k < j ↔ k ≤ j := ⟨Int8.le_of_lt, fun h => Int8.lt_of_le_of_ne h hkj⟩
    refine hoffers.passed (psFieldLabel j).noNul hfirst hother (fun b => ?_) b
    rw [← decide_eq_decide.mpr horder]
    exact ends_field hlive next g hj hkr b

/-- How the way ends that leads to a field. -/
theorem descends_field {j k : Int8} (hj : j ∈ ([0, 1, 2, 3, 4] : List Int8)) (hk : g.fieldCount = k)
    (hkr : k ∈ ([0, 1, 2, 3, 4] : List Int8)) :
    Descends db (fun stop => ¬ k ≤ j ∧ ∃ node, stop = .notFound { g with fieldCount := 0 } node)
      (fun g' node => k ≤ j ∧ g' = { g with fieldCount := j } ∧ node = .ps pid .field)
      [(psFieldLabel j).chars] g (.ps pid .process) := by
  intro nameBuf
  obtain ⟨r, hr, hout⟩ := ends_process_field hlive g hj hk hkr (.ps pid .process) nameBuf
  refine ⟨searchOutcome r, hr.mono fun n hn => ?_, ?_⟩
  · simp only [List.foldlM_cons, List.foldlM_nil]
    have hstep : descend db n ⟨g, .ps pid .process, nameBuf⟩ (psFieldLabel j).chars
        = searchOutcome r := congrArg searchOutcome hn
    rw [hstep]
    cases searchOutcome r <;> rfl
  · cases r with
    | error t => exact hout.elim
    | ok r =>
      obtain ⟨found, s⟩ := r
      obtain ⟨hfound, hs⟩ := hout
      obtain rfl : found = decide (k ≤ j) := hfound
      by_cases hkj : k ≤ j
      · rw [if_pos (decide_eq_true hkj)] at hs
        simp only [searchOutcome, decide_eq_true hkj]
        exact ⟨hkj, hs.1, hs.2⟩
      · rw [if_neg (by simp [hkj])] at hs
        simp only [searchOutcome, decide_eq_false hkj]
        exact ⟨hkj, s.cur.node, by rw [← hs]⟩

end Search

/-! ## From the root -/

section Ways

variable {cfg : Config} {env : Env}

/-- The row of the processes. -/
def psRow (env : Env) : TableRow :=
  ⟨GetNodeFn.dbNewPsNode.nodeName, .inner, GetNodeFn.dbNewPsNode.node env⟩

variable (env) in
/-- The rows on the way to the processes. -/
theorem psRow_mem (hps : cfg.ps = true) :
    ⟨(runtimeEntry cfg).branchName, .inner, dbNewFlNode 1⟩ ∈ tableRows (.ofEnv cfg env) dbGetRoot ∧
      psRow env ∈ tableRows (.ofEnv cfg env) (dbNewFlNode 1) := by
  have he : (Db.ofEnv cfg env).dbIndex[(1 : UInt8).toNat]? = some (runtimeEntry cfg) :=
    runtime_branch cfg
  refine ⟨List.mem_of_getElem? (i := 1) ?_, ?_⟩
  · have he' : (Db.ofEnv cfg env).dbIndex[1]? = some (runtimeEntry cfg) := he
    rw [dbGetRoot, tableRows, List.getElem?_mapIdx, he', Option.map_some]
    rfl
  · rw [tableRows_branch he, DbFlEntry.rows]
    refine List.mem_append_right _ ?_
    simp [runtimeEntry, hps, psRow]

/-- A way that begins at the processes. -/
theorem descends_processes (hps : cfg.ps = true) (hfirst : env.FirstThread)
    (hnames : SiblingNames ((env.pidsFrom kernelPidFirst).map fun p => (env.threadName p).chars))
    {E : Stop → Prop} {P : Globals → DbNode → Prop} {comps : List (List Char)} (p : env.Process)
    {g : Globals} (hrest : ∀ g', SameCounts g g' →
      Descends (.ofEnv cfg env) E P comps g' (.ps p.pid .process)) :
    Descends (.ofEnv cfg env) E P ((CString.lit "runtime").chars :: (CString.lit "ps").chars
      :: p.thread.name.chars :: comps) g dbGetRoot := by
  obtain ⟨hbranch, hrow⟩ := psRow_mem env hps
  refine folder_root.descends hbranch fun g₁ hg₁ => ?_
  refine (folder_branch (runtime_branch cfg)).descends hrow fun g₂ hg₂ => ?_
  have hmem : p.pid ∈ env.pidsFrom kernelPidFirst := mem_pidsFrom.mpr p.live
  have hname : env.threadName p.pid = p.thread.name := by simp only [Env.threadName, p.thread_eq]
  have hstart : (Db.ofEnv cfg env).env.PidOrEnd kernelPidFirst := Or.inl hfirst
  have hlists : Lists (.ofEnv cfg env) env.threadName _ ⟨g₂, dbNewPsNode, dbNewPsNode⟩
      (env.pidsFrom kernelPidFirst) :=
    lists_processes env.kernelPidLast hstart (Nat.lt_add_of_pos_left (by decide))
      (fun p => hnames.length_lt) g₂ _
  rw [← hname]
  refine .cons hlists hnames hmem ?_
  rintro c ⟨hg, hchild⟩
  rw [hg, hchild]
  exact hrest g₂ (hg₁.trans hg₂)

/-- The names on the way to a field. -/
theorem pathComponents_fieldPath
    (hnames : SiblingNames ((env.pidsFrom kernelPidFirst).map fun p => (env.threadName p).chars))
    (f : env.ProcessField) : pathComponents f.path = [(CString.lit "runtime").chars,
      (CString.lit "ps").chars, f.process.thread.name.chars, (psFieldLabel f.field).chars] := by
  have hmem : f.process.pid ∈ env.pidsFrom kernelPidFirst := mem_pidsFrom.mpr f.process.live
  have hname : env.threadName f.process.pid = f.process.thread.name := by
    simp only [Env.threadName, f.process.thread_eq]
  have hpath : ∀ name ∈ [CString.lit "runtime", .lit "ps", f.process.thread.name,
      psFieldLabel f.field], PathName name := by
    intro name hn
    simp only [List.mem_cons, List.not_mem_nil, or_false] at hn
    rcases hn with rfl | rfl | rfl | rfl
    · unfold PathName
      decide
    · unfold PathName
      decide
    · exact hname ▸ hnames.pathName hmem
    · exact siblingNames_psFields.pathName f.inRange
  rw [Env.ProcessField.path, pathComponents_slashPath hpath]
  rfl

/-- The lookup of a field. -/
theorem find_field (hps : cfg.ps = true) (hfirst : env.FirstThread)
    (hnames : SiblingNames ((env.pidsFrom kernelPidFirst).map fun p => (env.threadName p).chars))
    (f : env.ProcessField) {g : Globals} (hrange : g.fieldCount ∈ ([0, 1, 2, 3, 4] : List Int8))
    (child : DbNode) (nameBuf : NameBuf) :
    Ends (fun _ => False) (fun found : Found =>
        (found.code = 0 ∧ g.fieldCount ≤ f.field ∧ SameCounts { g with fieldCount := f.field } found.g ∧
          found.node = .ps f.process.pid .field) ∨
        (found.code = enoent ∧ ¬ g.fieldCount ≤ f.field ∧
          SameCounts { g with fieldCount := 0 } found.g))
      (fun fuel => dbFindNodeByPath (.ofEnv cfg env) fuel g f.path child nameBuf) := by
  have hdescends : Descends (.ofEnv cfg env)
      (fun stop => ¬ g.fieldCount ≤ f.field ∧
        ∃ g' node, stop = .notFound g' node ∧ SameCounts { g with fieldCount := 0 } g')
      (fun g' node => g.fieldCount ≤ f.field ∧ SameCounts { g with fieldCount := f.field } g' ∧
        node = .ps f.process.pid .field) (pathComponents f.path) g dbGetRoot := by
    rw [pathComponents_fieldPath hnames f]
    refine descends_processes hps hfirst hnames f.process fun g' hg' => ?_
    intro b
    refine (descends_field f.process.live g' f.inRange hg'.fieldCount hrange b).mono ?_ ?_
    · rintro _ ⟨hlt, node, rfl⟩
      exact ⟨hlt, _, node, rfl, rfl, hg'.saulFieldCount, hg'.numNeighbours⟩
    · rintro d ⟨hle, hd, hnode⟩
      refine ⟨hle, ?_, hnode⟩
      rw [hd]
      exact ⟨rfl, hg'.saulFieldCount, hg'.numNeighbours⟩
  have hfind : Ends (fun _ => False) _ fun fuel =>
      dbFindNodeByPath (.ofEnv cfg env) fuel g f.path child nameBuf :=
    hdescends.find (fun _ h => by obtain ⟨-, _, _, hstop, -⟩ := h; cases hstop) child nameBuf
  refine hfind.mono (fun _ => id) ?_
  rintro found (⟨hcode, hle, hsame, hnode⟩ | ⟨hcode, hlt, g', node, hstop, hsame⟩)
  · exact Or.inl ⟨hcode, hle, hsame, hnode⟩
  · obtain ⟨rfl, rfl⟩ := Stop.notFound.inj hstop
    exact Or.inr ⟨hcode, hlt, hsame⟩

/-! ## The answers -/

/-- What is printed for the field. -/
theorem content_field (db : Db) (f : db.env.ProcessField) (stack : Stack) {g : Globals}
    (hg : g.fieldCount = f.field) :
    ∃ type, dbNodeGetType db g (.ps f.process.pid .field) = .ok type ∧ (type = .int ∨ type = .str) ∧
      printNodeContent db stack g (.ps f.process.pid .field) = .ok (g, f.text) := by
  have hint : g.fieldCount ≠ 1 → ∀ v, psNodeGetintValue db.env g f.process.pid = .ok v →
      dbNodeGetType db g (.ps f.process.pid .field) = .ok .int ∧
        printNodeContent db stack g (.ps f.process.pid .field) = .ok (g, intText v) := by
    intro hone v hv
    have htype : dbNodeGetType db g (.ps f.process.pid .field) = .ok .int := by
      rw [dbNodeGetType, psNodeGettype_field, if_neg hone]
    refine ⟨htype, printContent_int htype ?_⟩
    rw [intValue_ps htype, hv]
    rfl
  have hvalue := psNodeGetintValue_eq f.process g
  have hrange := f.inRange
  rw [← hg] at hrange
  simp only [List.mem_cons, List.not_mem_nil, or_false] at hrange
  unfold Env.ProcessField.text
  rw [← hg]
  rcases hrange with h | h | h | h | h
  · obtain ⟨htype, hprint⟩ := hint (by rw [h]; decide) _ (hvalue.trans (by rw [h]; rfl))
    exact ⟨_, htype, Or.inl rfl, by rw [hprint, h]; rfl⟩
  · have hshort : (CString.lit (stateNames f.process.thread.status)).length < 30 :=
      stateName_short _
    obtain ⟨b, hget, hs⟩ := strValue_state f.process h
      (by decide : dbNodeNameMax ≤ dcaShellStrbufSize) stack.str (dcaShellStrbufSize - 1)
    have hprint : printNodeContent db stack g (.ps f.process.pid .field) = .ok (g, _) :=
      printContent_str (strType_state h f.process.pid) hget hs (by omega) (by decide)
    exact ⟨_, strType_state h f.process.pid, Or.inr rfl, by rw [hprint, h]; rfl⟩
  · obtain ⟨htype, hprint⟩ := hint (by rw [h]; decide) _ (hvalue.trans (by rw [h]; rfl))
    exact ⟨_, htype, Or.inl rfl, by rw [hprint, h]; rfl⟩
  · obtain ⟨htype, hprint⟩ := hint (by rw [h]; decide) _ (hvalue.trans (by rw [h]; rfl))
    exact ⟨_, htype, Or.inl rfl, by rw [hprint, h]; rfl⟩
  · obtain ⟨htype, hprint⟩ := hint (by rw [h]; decide) _ (hvalue.trans (by rw [h]; rfl))
    exact ⟨_, htype, Or.inl rfl, by rw [hprint, h]; rfl⟩

/-- `_dcaq` prints what the dump prints for a leaf. -/
theorem askLeaf_of_found {db : Db} {stack : Stack} {fuel : Nat} {g g' : Globals} {path : CString}
    {found : Found} {type : DbNodeType} {text : CString}
    (hfind : dbFindNodeByPath db fuel g path stack.node stack.name = .ok found)
    (hcode : found.code = 0) (htype : dbNodeGetType db found.g found.node = .ok type)
    (hleaf : type = .int ∨ type = .float ∨ type = .str)
    (hprint : printNodeContent db stack found.g found.node = .ok (g', text)) :
    askLeaf db stack fuel g path = .ok (g', some text) := by
  obtain ⟨⟨g₁, b, r⟩, hval, hprint⟩ := bind_eq_ok.mp hprint
  obtain ⟨_, -, hprint⟩ := bind_eq_ok.mp hprint
  obtain ⟨rfl, rfl⟩ := Prod.mk.inj (Except.ok.inj hprint)
  have hfound : ¬ found.code < 0 := by
    rw [hcode]
    decide
  rcases hleaf with rfl | rfl | rfl
  · simp only [askLeaf, dcaq, query, hfind, ok_bind, if_neg hfound, htype, hval, pure_eq_ok]
    rfl
  · simp only [askLeaf, dcaq, query, hfind, ok_bind, if_neg hfound, htype, hval, pure_eq_ok]
    rfl
  · simp only [askLeaf, dcaq, query, hfind, ok_bind, if_neg hfound, htype, hval, pure_eq_ok]
    rfl

theorem askLeaf_of_not_found {db : Db} {stack : Stack} {fuel : Nat} {g : Globals} {path : CString}
    {found : Found} (hfind : dbFindNodeByPath db fuel g path stack.node stack.name = .ok found)
    (hcode : found.code = enoent) : askLeaf db stack fuel g path = .ok (found.g, none) := by
  have hnot : found.code < 0 := by
    rw [hcode]
    decide
  simp only [askLeaf, dcaq, query, hfind, ok_bind, if_pos hnot, pure_eq_ok]
  rfl

/-- A question for a leaf that is found. -/
theorem ends_askLeaf {db : Db} {stack : Stack} {g : Globals} {path : CString} {text : CString}
    {Q : Found → Prop} {P : Globals → Prop}
    (hfind : Ends (fun _ => False) Q
      fun fuel => dbFindNodeByPath db fuel g path stack.node stack.name)
    (hleaf : ∀ found, Q found → found.code = 0 ∧ ∃ type g',
      dbNodeGetType db found.g found.node = .ok type ∧ (type = .int ∨ type = .float ∨ type = .str) ∧
        printNodeContent db stack found.g found.node = .ok (g', text) ∧ P g') :
    Ends (fun _ => False) (fun r => P r.1 ∧ r.2 = some text)
      (fun fuel => askLeaf db stack fuel g path) := by
  obtain ⟨r, hr, hout⟩ := hfind
  cases r with
  | error t => exact hout.elim
  | ok found =>
    obtain ⟨hcode, type, g', htype, htypes, hprint, hg'⟩ := hleaf found hout
    exact ⟨.ok (g', some text),
      hr.mono fun n hn => askLeaf_of_found hn hcode htype htypes hprint, hg', rfl⟩

/-- A question for a field of a process. -/
theorem ends_askField (hps : cfg.ps = true) (hfirst : env.FirstThread)
    (hnames : SiblingNames ((env.pidsFrom kernelPidFirst).map fun p => (env.threadName p).chars))
    (stack : Stack) (f : env.ProcessField) {g : Globals}
    (hrange : g.fieldCount ∈ ([0, 1, 2, 3, 4] : List Int8)) :
    Ends (fun _ => False)
      (fun r => (r.1.fieldCount = (askField g.fieldCount f).1 ∧ r.1.saulFieldCount = g.saulFieldCount) ∧
        r.2 = (askField g.fieldCount f).2)
      (fun fuel => askLeaf (.ofEnv cfg env) stack fuel g f.path) := by
  have hfind : Ends _ _ fun fuel =>
      dbFindNodeByPath (.ofEnv cfg env) fuel g f.path stack.node stack.name :=
    find_field hps hfirst hnames f hrange stack.node stack.name
  obtain ⟨r, hr, hout⟩ := hfind
  cases r with
  | error t => exact hout.elim
  | ok found =>
    rcases hout with ⟨hcode, hle, hsame, hnode⟩ | ⟨hcode, hlt, hsame⟩
    · have hcount : found.g.fieldCount = f.field := hsame.fieldCount
      have hcontent := content_field (.ofEnv cfg env) f stack hcount
      obtain ⟨type, htype, hleaf, hprint⟩ := hcontent
      rw [← hnode] at htype hprint
      refine ⟨.ok (found.g, some f.text), hr.mono fun n hn => ?_, ?_⟩
      · exact askLeaf_of_found hn hcode htype (hleaf.imp_right Or.inr) hprint
      · rw [askField, if_pos hle]
        exact ⟨⟨hcount, hsame.saulFieldCount⟩, rfl⟩
    · refine ⟨.ok (found.g, none), hr.mono fun n hn => askLeaf_of_not_found hn hcode, ?_⟩
      rw [askField, if_neg hlt]
      exact ⟨⟨hsame.fieldCount, hsame.saulFieldCount⟩, rfl⟩

/-! ## Interfaces -/

/-- What is printed for a field of an interface. -/
theorem content_ifaceField (db : Db) (f : db.env.IfaceField) (stack : Stack) (g : Globals) :
    ∃ type g', dbNodeGetType db { g with netifFieldCount := f.field } (.netif (some f.index) .field)
        = .ok type ∧ (type = .int ∨ type = .str) ∧
      printNodeContent db stack { g with netifFieldCount := f.field } (.netif (some f.index) .field)
        = .ok (g', f.text) := by
  have hat : db.env.ifaceAt (some f.index) = some f.iface := f.iface_eq
  have hiface : db.env.iface (some f.index) = .ok f.iface := iface_eq_ok.mpr hat
  have hstr : ∀ x (text : CString), netifNodeGettype { g with netifFieldCount := x } .field = .str →
      strText db { g with netifFieldCount := x } (.netif (some f.index) .field) = some text →
      TextWellFormed db { g with netifFieldCount := x } (.netif (some f.index) .field) stack.str →
      text.length < dcaShellStrbufSize →
      ∃ g', printNodeContent db stack { g with netifFieldCount := x } (.netif (some f.index) .field)
        = .ok (g', text) := by
    intro x text htype htext hwf hlt
    obtain ⟨text', shown, g', b, htext', hval, hs, hfor⟩ := hwf
    have htype' : dbNodeGetType db { g with netifFieldCount := x } (.netif (some f.index) .field)
        = .ok .str := congrArg Except.ok htype
    obtain rfl := Option.some.inj (((leafText_str htype').trans htext).symm.trans htext')
    obtain rfl : shown = text := by rwa [ShownFor, if_pos hlt] at hfor
    refine ⟨g', ?_⟩
    simp only [printNodeContent, hval, ok_bind, hs.strlen_eq, hs.str_eq, inBounds, pure_eq_ok]
  have hrange := f.inRange
  simp only [List.mem_cons, List.not_mem_nil, or_false] at hrange
  unfold Env.IfaceField.text
  rcases hrange with h | h | h | h
  · have hpid : netifNodeGetintValue db.env { g with netifFieldCount := 0 } (some f.index)
        = .ok ({ g with netifFieldCount := 0 }, f.iface.id) := by
      simp only [netifNodeGetintValue, if_true, hiface, ok_bind, pure_eq_ok]
    rw [h]
    exact ⟨_, _, rfl, Or.inl rfl, printContent_int rfl ((intValue_netif rfl).trans hpid)⟩
  · have haddr : (f.iface.addrText db.env).length < dcaShellStrbufSize :=
      Nat.lt_trans (f.iface.addrText_fits db.env) (by decide)
    have hwf : TextWellFormed db { g with netifFieldCount := 1 } (.netif (some f.index) .field)
        stack.str := by
      rw [netif_str (by decide) rfl]
      exact ⟨f.iface, hat, haddr, fun _ => by decide⟩
    rw [h]
    obtain ⟨g', hprint⟩ := hstr 1 _ rfl (by simp [strText, hat]) hwf haddr
    exact ⟨_, g', rfl, Or.inr rfl, hprint⟩
  · have hlink : f.iface.linkText.length < dcaShellStrbufSize := by
      unfold Netif.linkText
      split_ifs <;> decide
    have hwf : TextWellFormed db { g with netifFieldCount := 2 } (.netif (some f.index) .field)
        stack.str := by
      rw [netif_str (by decide) rfl]
      exact ⟨f.iface, hat, hlink⟩
    rw [h]
    obtain ⟨g', hprint⟩ := hstr 2 _ rfl (by simp [strText, hat]) hwf hlink
    exact ⟨_, g', rfl, Or.inr rfl, hprint⟩
  · have hnum : ∃ g', netifNodeGetintValue db.env { g with netifFieldCount := 3 } (some f.index)
        = .ok (g', (((db.env.nibNc f.iface.id).length % 256 : Nat) : Int)) := by
      simp [netifNodeGetintValue, hiface, numNeighbours_foldl]
    rw [h]
    obtain ⟨g', hnum⟩ := hnum
    exact ⟨_, _, rfl, Or.inl rfl, printContent_int rfl ((intValue_netif rfl).trans hnum)⟩

/-- The shared variables a sequence of questions depends on. -/
structure Asked (g : Globals) (k : Int8) : Prop where
  position : g.fieldCount = k
  inRange : k ∈ ([0, 1, 2, 3, 4] : List Int8)
  saulFieldCount : g.saulFieldCount = 0

theorem Asked.of_same {g g' : Globals} {k : Int8} (h : Asked g k)
    (hfield : g'.fieldCount = g.fieldCount) (hsaul : g'.saulFieldCount = g.saulFieldCount) :
    Asked g' k :=
  ⟨hfield.trans h.position, h.inRange, hsaul.trans h.saulFieldCount⟩

theorem Asked.of_reachable {g : Globals} (h : Reachable (dbIndex cfg) g) : Asked g g.fieldCount where
  position := rfl
  inRange := by simpa using h.inRange.fieldCount_cases
  saulFieldCount := h.inRange.saulFieldCount

/-- Reading a value leaves the position alone. -/
theorem Asked.afterValue {env : Env} {g : Globals} {k : Int8} (h : Asked g k) (node : DbNode) :
    Asked (afterValue env g node) k := by
  rcases afterValue_cases env g node with hsame | ⟨id, hcount⟩
  · rw [hsame]
    exact h
  · rw [hcount]
    obtain ⟨-, -, hfield, hsaul⟩ :=
      foldl_countNeighbour_frame (env.nibNc id) { g with numNeighbours := 0 }
    exact h.of_same hfield hsaul

/-- A question for a field of an interface. -/
theorem ends_askIface (hnetwork : cfg.network = true)
    (hnames : SiblingNames (env.ifaces.map (·.name.chars))) (stack : Stack) (f : env.IfaceField)
    {g : Globals} {k : Int8} (hg : Asked g k) :
    Ends (fun _ => False) (fun r => Asked r.1 k ∧ r.2 = some f.text)
      (fun fuel => askLeaf (.ofEnv cfg env) stack fuel g f.path) := by
  have hlt : f.index < env.ifaces.length := (List.getElem?_eq_some_iff.mp f.iface_eq).1
  rw [← map_ifaceName] at hnames
  have hmem : f.index ∈ List.range' 0 env.ifaces.length :=
    List.mem_range'_1.mpr ⟨Nat.zero_le _, by omega⟩
  have hname : env.ifaceName f.index = f.iface.name := by simp only [Env.ifaceName, f.iface_eq]
  have hfield : f.field ∈ ([0, 1, 2, 3, 4] : List UInt8) :=
    List.mem_append_left [4] f.inRange
  have hpath : ∀ name ∈ [CString.lit "network", .lit "netif", f.iface.name,
      netifFieldLabel f.field], PathName name := by
    simp only [List.forall_mem_cons]
    exact ⟨⟨by decide, by decide⟩, ⟨by decide, by decide⟩, hname ▸ hnames.pathName hmem,
      siblingNames_netifFields.pathName hfield, by simp⟩
  have hway : Descends (.ofEnv cfg env) (fun _ => False)
      (fun g' node => Asked g' k ∧ g'.netifFieldCount = f.field ∧
        node = .netif (some f.index) .field) (pathComponents f.path) g dbGetRoot := by
    rw [Env.IfaceField.path, pathComponents_slashPath hpath]
    refine folder_root.descends (networkRow_mem hnetwork) fun g₁ h₁ => ?_
    refine (folder_branch (network_branch hnetwork)).descends (netifRow_mem hnetwork)
      fun g₂ h₂ => ?_
    have hg₂ : Asked g₂ k := hg.of_same (h₁.trans h₂).fieldCount (h₁.trans h₂).saulFieldCount
    have hlists : Lists (.ofEnv cfg env) env.ifaceName _
        ⟨(netifRow env).node.constructed g₂, (netifRow env).node, (netifRow env).node⟩ _ :=
      lists_ifaces _ (Nat.zero_add _) (fun j => hnames.length_lt) _ _
    rw [← hname]
    refine .cons hlists hnames hmem ?_
    rintro c ⟨hc, hchild⟩
    rw [hc, hchild]
    refine .cons (lists_netifFields f.index rfl _) siblingNames_netifFields hfield ?_
    rintro c ⟨hc, hchild⟩
    refine .nil ?_
    rw [hc]
    exact ⟨hg₂.of_same rfl rfl, rfl, hchild⟩
  refine ends_askLeaf (P := fun g => Asked g k) (hway.find (fun _ => id) stack.node stack.name) ?_
  rintro found (⟨hcode, hasked, hcount, hnode⟩ | ⟨-, himpossible⟩)
  · have hself : found.g = { found.g with netifFieldCount := f.field } := by rw [← hcount]
    obtain ⟨type, g', htype, hleaf, hprint⟩ :=
      content_ifaceField (.ofEnv cfg env) f stack found.g
    have hafter : g' = _ := printContent_afterValue htype (by rcases hleaf with rfl | rfl <;> simp) hprint
    rw [← hself, ← hnode] at htype hprint
    refine ⟨hcode, type, g', htype, hleaf.imp_right Or.inr, hprint, ?_⟩
    have hasked' : Asked { found.g with netifFieldCount := f.field } k := hasked.of_same rfl rfl
    rw [hafter]
    exact hasked'.afterValue _
  · exact himpossible.elim

/-! ## Devices -/

/-- A question for the class of a device. -/
theorem ends_askDevice (hsaul : cfg.saul = true)
    (hnames : SiblingNames (env.saulReg.map (·.name.chars))) (stack : Stack) (d : env.DeviceClass)
    {g : Globals} {k : Int8} (hg : Asked g k) :
    Ends (fun _ => False) (fun r => Asked r.1 k ∧ r.2 = some d.text)
      (fun fuel => askLeaf (.ofEnv cfg env) stack fuel g d.path) := by
  have hfind : Ends (fun _ => False) _ fun fuel =>
      dbFindNodeByPath (.ofEnv cfg env) fuel g d.path stack.node stack.name :=
    (descends_class_same hsaul hnames d.reg_eq hg.saulFieldCount).find (fun _ => id) _ _
  refine ends_askLeaf (P := fun g => Asked g k) hfind ?_
  rintro found (⟨hcode, hsame, hnode⟩ | ⟨-, himpossible⟩)
  · have hasked : Asked found.g k := hg.of_same hsame.fieldCount hsame.saulFieldCount
    have hshows : ShowsClass (.ofEnv cfg env) found.g d.index d.reg :=
      showsClass hasked.saulFieldCount d.reg_eq
    obtain ⟨b, hget, hs⟩ := hshows.value _ (dcaShellStrbufSize - 1) stack.str d.short
    have hprint := printContent_str hshows.type hget hs (Nat.le_refl _) d.short
    rw [← hnode] at hprint
    exact ⟨hcode, _, found.g, hnode ▸ hshows.type, Or.inr (Or.inr rfl), hprint, hasked⟩
  · exact himpossible.elim

/-! ## Sequences of questions -/

/-- A question for a leaf of a process, of an interface or of a device. -/
inductive Question (cfg : Config) (env : Env) where
  | process (hps : cfg.ps = true) (f : env.ProcessField)
  | iface (hnetwork : cfg.network = true) (f : env.IfaceField)
  | device (hsaul : cfg.saul = true) (d : env.DeviceClass)

def Question.path : Question cfg env → CString
  | .process _ f => f.path
  | .iface _ f => f.path
  | .device _ d => d.path

/-- How a question is answered. It is the fields of processes alone that depend on the position. -/
def askQuestion (k : Int8) : Question cfg env → Int8 × Option CString
  | .process _ f => askField k f
  | .iface _ f => (k, some f.text)
  | .device _ d => (k, some d.text)

theorem ends_askQuestion (hfirst : env.FirstThread) (hnames : SiblingsApart env) (stack : Stack)
    {g : Globals} {k : Int8} (hg : Asked g k) (q : Question cfg env) :
    Ends (fun _ => False) (fun r => Asked r.1 (askQuestion k q).1 ∧ r.2 = (askQuestion k q).2)
      (fun fuel => askLeaf (.ofEnv cfg env) stack fuel g q.path) := by
  cases q with
  | process hps f =>
    have hrange : g.fieldCount ∈ ([0, 1, 2, 3, 4] : List Int8) := hg.position ▸ hg.inRange
    refine (ends_askField hps hfirst hnames.threads stack f hrange).mono (fun _ => id) ?_
    rintro r ⟨⟨hposition, hsaul⟩, htext⟩
    rw [hg.position] at hposition htext
    refine ⟨⟨hposition, ?_, hsaul.trans hg.saulFieldCount⟩, htext⟩
    show (askField k f).1 ∈ _
    unfold askField
    split_ifs
    · exact f.inRange
    · decide
  | iface hnetwork f => exact ends_askIface hnetwork hnames.ifaces stack f hg
  | device hsaul d => exact ends_askDevice hsaul hnames.devices stack d hg

end Ways

/--
**A sequence of questions is answered as by the machine of the position**, from every state that can
be reached: what an interface or a device says depends on no question before, and a field of a process
is found, with its own value, if and only if the position left by the fields before is not behind
it.
-/
theorem questions_answered (cfg : Config) (env : Env) (hfirst : env.FirstThread)
    (hnames : SiblingsApart env) (g : Globals) (hg : Reachable (dbIndex cfg) g) (stack : Stack)
    (questions : List (Question cfg env)) :
    ∃ N, ∀ fuel ≥ N,
      outputs (fun g q => askLeaf (.ofEnv cfg env) stack fuel g q.path) g questions
        = .ok ((answered askQuestion g.fieldCount questions).map Prod.snd) := by
  have hnext : ∀ (g : Globals) (k : Int8) (q : Question cfg env), Asked g k →
      Ends (fun _ => False) (fun r => Asked r.1 (askQuestion k q).1 ∧ r.2 = (askQuestion k q).2)
        fun fuel => askLeaf (.ofEnv cfg env) stack fuel g q.path :=
    fun _ _ q hg => ends_askQuestion hfirst hnames stack hg q
  have hends := ends_outputs hnext questions (Asked.of_reachable hg)
  obtain ⟨N, r, hr, hout⟩ := hends.exists_fuel
  cases r with
  | error t => exact hout.elim
  | ok out => exact ⟨N, fun fuel hfuel => by rw [hr fuel hfuel, hout]⟩

/-- The state of a thread, its pid twice, and between them what the interface and the device say. -/
def smallQuestions : List (Question {} smallEnv) :=
  [.process rfl ⟨idleProcess, 1, by decide⟩,
    .iface rfl ⟨0, ⟨6, .lit "6", some (linkLocal 2), 0⟩, rfl, 3, by decide⟩,
    .process rfl ⟨idleProcess, 0, by decide⟩,
    .device rfl ⟨0, ⟨.lit "led", 0x42⟩, rfl, by decide⟩,
    .process rfl ⟨idleProcess, 0, by decide⟩]

theorem questions_answered_small :
    (answered askQuestion 0 smallQuestions).map Prod.snd
        = [some (.lit "pending"), some (.lit "1"), none, some (.lit "ACT_SWITCH"), some (.lit "1")] ∧
      ∃ N, ∀ fuel ≥ N,
        outputs (fun g q => askLeaf smallDb emptyStack fuel g q.path) {} smallQuestions
          = .ok ((answered askQuestion 0 smallQuestions).map Prod.snd) := by
  have hfirst : smallEnv.FirstThread := by
    unfold Env.FirstThread Env.Live
    decide
  refine ⟨by decide +kernel, ?_⟩
  exact questions_answered {} smallEnv hfirst siblingsApart_small {}
    ⟨smallEnv, .boot smallEnv, .refl _, rfl⟩ emptyStack smallQuestions

end Dca
