import Dca.Db.History
import Dca.Lib.Interference
import Dca.Neighbour.Store

/-!
# Lookups in several threads

The shell, the file system and the CoAP handler run in different threads, and nothing keeps one of
them from being preempted inside `db_find_node_by_path`. Here one thread makes its lookup call by
call, and between two calls any other thread may have made any call on the database or stored any
measurement.
-/

namespace Dca

open CLib

/-! ## The thread -/

/-- Where a thread is in `db_find_node_by_path`. -/
inductive FindPc where
  /-- At the head of the outer loop. -/
  | outer
  /-- Before `db_node_get_next_child(node, &child_node)`. -/
  | nextChild
  /-- Before `db_node_is_null(&child_node)`. -/
  | isNull
  /-- Before `db_node_get_name(&child_node, name_buf)`. -/
  | getName
  /-- Behind the return, or stopped by a trap. -/
  | stopped (r : Res Int)
  deriving DecidableEq

/-- The local variables of `db_find_node_by_path`. -/
structure FindThread where
  pc : FindPc
  tok : Nat
  sPos : Nat
  node : DbNode
  child : DbNode
  nameBuf : NameBuf
  deriving DecidableEq

variable (db : Db) (path : CString)

namespace FindThread

/-- The thread at its first loop test. -/
def start (child : DbNode) (nameBuf : NameBuf) : FindThread :=
  let tok := skipSlashes path.chars 0
  ⟨.outer, tok, slashOrEnd path tok, dbGetRoot, child, nameBuf⟩

/-- The bytes that `memcmp` compares. -/
def comp (t : FindThread) : List Char := (path.chars.drop t.tok).take (t.sPos - t.tok)

/-- `memcpy(node, &child_node, sizeof(db_node_t))` and the next component. -/
def descend (t : FindThread) (nameBuf : NameBuf) : FindThread :=
  let tok := skipSlashes (path.chars.drop t.sPos) t.sPos
  { t with pc := .outer, tok, sPos := slashOrEnd path tok, node := t.child, nameBuf }

/-- What the thread does up to the next call. -/
def call (t : FindThread) (g : Globals) : Option (Res (Globals × FindThread)) :=
  match t.pc with
  | .outer => some do
    if t.tok = path.length then return (g, { t with pc := .stopped (.ok 0) })
    assert (t.tok < path.length)
    assert (t.sPos ≤ path.length)
    assert (t.tok ≤ t.sPos)
    assert (!(← dbNodeIsNull db g t.node))
    return (g, { t with pc := .nextChild })
  | .nextChild => some do
    let c ← dbNodeGetNextChild db ⟨g, t.node, t.child⟩
    return (c.g, { t with pc := .isNull, node := c.node, child := c.child })
  | .isNull => some do
    if ← dbNodeIsNull db g t.child then return (g, { t with pc := .stopped (.ok enoent) })
    return (g, { t with pc := .getName })
  | .getName => some do
    let nameBuf ← dbNodeGetName db g t.child t.nameBuf
    if ← inBounds (Buf.memcmp (t.comp path) nameBuf.chars) then return (g, t.descend path nameBuf)
    return (g, { t with pc := .nextChild, nameBuf })
  | .stopped _ => none

/-- One step of the thread. A trap stops it. -/
def step (g : Globals) (t : FindThread) : Option (Globals × FindThread) :=
  (t.call db path g).map fun
    | .ok x => x
    | .error e => (g, { t with pc := .stopped (.error e) })

end FindThread

/-! ## The other threads -/

/-- What another thread can do to the shared variables. Nodes and variables are its own. -/
inductive ForeignCall where
  /-- `db_node_get_next_child` -/
  | nextChild (node out : DbNode)
  /-- `db_node_get_int_value` -/
  | intValue (node : DbNode)
  /-- A result or a neighbour is stored in the neighbour list. -/
  | store (op : StatOp)

/-- The shared variables behind a call, if it comes back. -/
def ForeignCall.exec (g : Globals) : ForeignCall → Option Globals
  | .nextChild node out => (dbNodeGetNextChild db ⟨g, node, out⟩).toOption.map Cursor.g
  | .intValue node => (dbNodeGetIntValue db g node).toOption.map Prod.fst
  | .store op => some { g with neighbours := op.apply g.neighbours }

/-- One turn of the thread that looks `path` up, or of another one. -/
abbrev threadsStep : Globals × FindThread → Turn ForeignCall → Option (Globals × FindThread) :=
  takeTurn (FindThread.step db path) (ForeignCall.exec db)

variable {db path}

/-! ## What the other threads cannot change -/

/-- What every call of every thread keeps. -/
def Globals.SaulAtRest (g : Globals) : Prop := g.saulFieldCount = 0

theorem saulAtRest_exec {g g' : Globals} {call : ForeignCall} (hg : g.SaulAtRest)
    (h : call.exec db g = some g') : g'.SaulAtRest := by
  cases call with
  | nextChild node out =>
    obtain ⟨c, hc, rfl⟩ := Option.map_eq_some_iff.mp h
    exact kept_saulFieldCount.child (childStep_of_ok (toOption_eq_some.mp hc)) hg
  | intValue node =>
    obtain ⟨⟨g'', v⟩, hv, rfl⟩ := Option.map_eq_some_iff.mp h
    exact kept_saulFieldCount.intValue (toOption_eq_some.mp hv) hg
  | store op =>
    obtain rfl := Option.some.inj h
    exact hg

/-- What a node reports that lies above the levels of `ps.c` and `netif.c`. -/
theorem report_alone {g₁ g₂ : Globals} (h₁ : g₁.SaulAtRest) (h₂ : g₂.SaulAtRest) {node : DbNode}
    (hr : ReportOk False False node) : report db g₁ node = report db g₂ node := by
  cases node with
  | null => rfl
  | root idx => rfl
  | fl flIdx subIdx isRoot => exact report_fl g₁ g₂ flIdx subIdx isRoot
  | saul dev level => exact report_saul dev level (h₁.trans h₂.symm)
  | ps pid level =>
    refine report_ps ?_
    rintro rfl
    exact hr.elim
  | netif iface level =>
    cases level with
    | root | iface => exact report_netif_inner g₁ g₂ iface trivial
    | field | neighbour | qos => exact hr.elim

/-- Two cursors at the same place, with anything in the shared variables but `_saul_field_count`. -/
structure SamePlace (c₁ c₂ : Cursor) : Prop where
  node : c₁.node = c₂.node
  child : c₁.child = c₂.child
  rest₁ : c₁.g.SaulAtRest
  rest₂ : c₂.g.SaulAtRest
  search : SearchOk False False c₁.node
  report : c₁.node.file = .saulDevices → ReportOk False False c₁.child

/-- **One child, whatever the other threads did to the shared variables.** -/
theorem nextChild_samePlace {c₁ c₂ : Cursor} (h : SamePlace c₁ c₂) :
    Both (fun c₁ c₂ => SamePlace c₁ c₂ ∧ ReportOk False False c₁.child)
      (dbNodeGetNextChild db c₁) (dbNodeGetNextChild db c₂) := by
  obtain ⟨g₁, node, child⟩ := c₁
  obtain ⟨g₂, node₂, child₂⟩ := c₂
  obtain ⟨hnode, hchild, h₁, h₂, hs, hr⟩ := h
  obtain rfl : node = node₂ := hnode
  obtain rfl : child = child₂ := hchild
  cases node with
  | null => exact .error _
  | root idx =>
    simp only [dbNodeGetNextChild, rootGetNextChild]
    split_ifs
    · exact .ok ⟨⟨rfl, rfl, h₁, h₂, trivial, by simp [DbNode.file]⟩, trivial⟩
    · exact .ok ⟨⟨rfl, rfl, h₁, h₂, trivial, by simp [DbNode.file]⟩, trivial⟩
  | fl flIdx subIdx isRoot =>
    simp only [dbNodeGetNextChild, flNodeGetnextChild]
    refine Both.bind_eq ?_
    intro e _
    split_ifs with hroot hsub
    · exact .ok ⟨⟨rfl, rfl, h₁, h₂, trivial, by simp [DbNode.file]⟩, trivial⟩
    · split
      · next d hd =>
        cases d.getNodeFn with
        | dbNewPsNode | dbNewSaulNode | dbNewNetifNode =>
          exact .ok ⟨⟨rfl, rfl, h₁, h₂, trivial, by simp [DbNode.file]⟩, trivial⟩
      · exact .ok ⟨⟨rfl, rfl, h₁, h₂, trivial, by simp [DbNode.file]⟩, trivial⟩
    · exact .ok ⟨⟨rfl, rfl, h₁, h₂, trivial, by simp [DbNode.file]⟩, trivial⟩
  | ps pid level =>
    cases level with
    | root =>
      simp only [dbNodeGetNextChild, psNodeGetnextChild]
      split_ifs
      · refine Both.bind_eq ?_
        intro next _
        exact .ok ⟨⟨rfl, rfl, h₁, h₂, trivial, by simp [DbNode.file]⟩, trivial⟩
      · exact .ok ⟨⟨rfl, rfl, h₁, h₂, trivial, by simp [DbNode.file]⟩, trivial⟩
    | process | field => exact hs.elim
  | saul dev level =>
    have hrest : g₁.saulFieldCount = g₂.saulFieldCount := h₁.trans h₂.symm
    have hstay : ReportOk False False child := hr rfl
    cases level with
    | root =>
      cases dev with
      | none => exact .ok ⟨⟨rfl, rfl, h₁, h₂, trivial, fun _ => trivial⟩, trivial⟩
      | some i => exact .ok ⟨⟨rfl, rfl, h₁, h₂, trivial, fun _ => trivial⟩, trivial⟩
    | device =>
      cases dev with
      | none => exact .ok ⟨⟨rfl, rfl, h₁, h₂, trivial, fun _ => hstay⟩, hstay⟩
      | some i =>
        simp only [dbNodeGetNextChild, saulNodeGetnextChild, hrest]
        split_ifs
        · exact .ok ⟨⟨rfl, rfl, h₁, h₂, trivial, fun _ => trivial⟩, trivial⟩
        · exact .ok ⟨⟨rfl, rfl, h₁, h₂, trivial, fun _ => hstay⟩, hstay⟩
    | field =>
      have hend : g₂.saulFieldCount = saulCount - 1 := h₂
      simp only [dbNodeGetNextChild, saulNodeGetnextChild, hrest, if_pos hend]
      exact .ok ⟨⟨rfl, rfl, rfl, rfl, trivial, fun _ => trivial⟩, trivial⟩
  | netif iface level =>
    cases level with
    | root =>
      cases iface with
      | none => exact .ok ⟨⟨rfl, rfl, h₁, h₂, trivial, by simp [DbNode.file]⟩, trivial⟩
      | some i => exact .ok ⟨⟨rfl, rfl, h₁, h₂, trivial, by simp [DbNode.file]⟩, trivial⟩
    | iface | field | neighbour | qos => exact hs.elim

theorem isNull_alone {g₁ g₂ : Globals} (h₁ : g₁.SaulAtRest) (h₂ : g₂.SaulAtRest) {node : DbNode}
    (hr : ReportOk False False node) : dbNodeIsNull db g₁ node = dbNodeIsNull db g₂ node := by
  have ht : dbNodeGetType db g₁ node = dbNodeGetType db g₂ node :=
    congrArg Report.type (report_alone h₁ h₂ hr)
  rw [dbNodeIsNull, dbNodeIsNull, ht]

theorem name_alone {g₁ g₂ : Globals} (h₁ : g₁.SaulAtRest) (h₂ : g₂.SaulAtRest) {node : DbNode}
    (hr : ReportOk False False node) (b : NameBuf) :
    dbNodeGetName db g₁ node b = dbNodeGetName db g₂ node b :=
  congrFun (congrArg Report.name (report_alone h₁ h₂ hr)) b

/-! ## One step -/

/-- The thread looks at nothing that another thread can change. -/
structure FindThread.Sheltered (t : FindThread) : Prop where
  report : t.pc = .outer → ReportOk False False t.node
  search : t.pc = .nextChild → SearchOk False False t.node
  child : t.node.file = .saulDevices ∨ t.pc = .isNull ∨ t.pc = .getName →
    ReportOk False False t.child

theorem unaffected_of_both {t : FindThread}
    (h : ∀ g₁ g₂ : Globals, g₁.SaulAtRest → g₂.SaulAtRest → ∃ r₁ r₂,
      t.call db path g₁ = some r₁ ∧ t.call db path g₂ = some r₂ ∧
        Both (fun x y => x.2 = y.2 ∧ x.1.SaulAtRest) r₁ r₂) :
    Unaffected (FindThread.step db path) Globals.SaulAtRest t where
  same := by
    intro g₁ g₂ h₁ h₂
    obtain ⟨r₁, r₂, hr₁, hr₂, hb⟩ := h g₁ g₂ h₁ h₂
    rw [FindThread.step, FindThread.step, hr₁, hr₂]
    cases hb with
    | ok hxy => exact congrArg some hxy.1
    | error e => rfl
  keep := by
    intro g g' t' hg hstep
    obtain ⟨r₁, r₂, hr₁, -, hb⟩ := h g g hg hg
    rw [FindThread.step, hr₁] at hstep
    cases hb with
    | ok hxy =>
      obtain rfl := Option.some.inj hstep
      exact hxy.2
    | error e =>
      obtain ⟨rfl, -⟩ := Prod.mk.inj (Option.some.inj hstep)
      exact hg

theorem FindThread.Sheltered.unaffected {t : FindThread} (ht : t.Sheltered) :
    Unaffected (FindThread.step db path) Globals.SaulAtRest t := by
  obtain ⟨pc, tok, sPos, node, child, nameBuf⟩ := t
  obtain ⟨ho, hs, hc⟩ := ht
  cases pc with
  | outer =>
    refine unaffected_of_both fun g₁ g₂ h₁ h₂ => ⟨_, _, rfl, rfl, ?_⟩
    dsimp only
    split_ifs
    · exact .ok ⟨rfl, h₁⟩
    · refine Both.bind_eq fun _ _ => Both.bind_eq fun _ _ => Both.bind_eq fun _ _ => ?_
      rw [isNull_alone h₁ h₂ (ho rfl)]
      refine Both.bind_eq fun _ _ => Both.bind_eq fun _ _ => ?_
      exact .ok ⟨rfl, h₁⟩
  | nextChild =>
    refine unaffected_of_both fun g₁ g₂ h₁ h₂ => ⟨_, _, rfl, rfl, ?_⟩
    have hsame : SamePlace ⟨g₁, node, child⟩ ⟨g₂, node, child⟩ :=
      ⟨rfl, rfl, h₁, h₂, hs rfl, fun hfile => hc (Or.inl hfile)⟩
    refine (nextChild_samePlace hsame).bind ?_
    rintro c₁ c₂ ⟨hplace, -⟩
    refine .ok ⟨?_, hplace.rest₁⟩
    simp only [hplace.node, hplace.child]
  | isNull =>
    refine unaffected_of_both fun g₁ g₂ h₁ h₂ => ⟨_, _, rfl, rfl, ?_⟩
    dsimp only
    rw [isNull_alone h₁ h₂ (hc (Or.inr (Or.inl rfl)))]
    refine Both.bind_eq fun _ _ => ?_
    split_ifs
    · exact .ok ⟨rfl, h₁⟩
    · exact .ok ⟨rfl, h₁⟩
  | getName =>
    refine unaffected_of_both fun g₁ g₂ h₁ h₂ => ⟨_, _, rfl, rfl, ?_⟩
    dsimp only
    rw [name_alone h₁ h₂ (hc (Or.inr (Or.inr rfl)))]
    refine Both.bind_eq fun _ _ => Both.bind_eq fun _ _ => ?_
    split_ifs
    · exact .ok ⟨rfl, h₁⟩
    · exact .ok ⟨rfl, h₁⟩
  | stopped r =>
    refine ⟨fun _ _ _ _ => rfl, ?_⟩
    intro g g' t' hg hstep
    cases hstep

/-- Where the thread stops when a call does not come back. The bound of a loop is not in the thread. -/
def FindThread.Trapped (e : Trap) (t : FindThread) : Prop :=
  e ≠ .fuel → t.pc = .stopped (.error e)

/-- **One turn follows one computation**: the call, and what the thread does with its result. -/
theorem computes_turn {β : Type} {g : Globals} {t : FindThread} (hg : g.SaulAtRest)
    (ht : t.Sheltered) {r : Res β} {f : β → Globals × FindThread}
    (hcall : t.call db path g = some (do return f (← r))) :
    Computes (FindThread.step db path) Globals.SaulAtRest FindThread.Trapped (g, t) r
      (fun b y => y = f b) := by
  have hun : Unaffected (FindThread.step db path) Globals.SaulAtRest t := ht.unaffected
  cases r with
  | error e =>
    have hstep : FindThread.step db path g t = some (g, { t with pc := .stopped (.error e) }) := by
      rw [FindThread.step, hcall]
      rfl
    exact .step hg hstep hun (.error hg fun _ => rfl)
  | ok b =>
    have hstep : FindThread.step db path g t = some (f b) := by
      rw [FindThread.step, hcall]
      rfl
    exact .step hg hstep hun (.pure (hun.keep _ _ _ hg hstep) rfl)

/-! ## One component -/

/-- Where the thread is behind the inner loop. -/
def FindThread.Searched (path : CString) (t : FindThread) :
    Bool × Search → Globals × FindThread → Prop
  | (true, s), y =>
    y = (s.cur.g, { t with node := s.cur.node, child := s.cur.child }.descend path s.nameBuf) ∧
      ReportOk False False s.cur.child
  | (false, s), y => y.2.pc = .stopped (.ok enoent) ∧ y.2.node = s.cur.node

/-- What the call of `db_node_get_next_child` keeps for the thread itself. -/
theorem samePlace_child {c c' : Cursor} (hg : c.g.SaulAtRest)
    (hs : SearchOk False False c.node)
    (hc : c.node.file = .saulDevices → ReportOk False False c.child)
    (h : dbNodeGetNextChild db c = .ok c') : SamePlace c' c' ∧ ReportOk False False c'.child := by
  have hboth : Both _ (dbNodeGetNextChild db c) (dbNodeGetNextChild db c) :=
    nextChild_samePlace ⟨rfl, rfl, hg, hg, hs, hc⟩
  rw [h] at hboth
  cases hboth with
  | ok hc' => exact hc'

/-- The turn that reads the name of a child ends where the comparison sends the thread. -/
theorem computes_name {γ : Type} {g : Globals} {t : FindThread} (hg : g.SaulAtRest)
    (hpc : t.pc = .getName) (ht : t.Sheltered) {f : NameBuf → Bool → Res γ}
    {Q : γ → Globals × FindThread → Prop}
    (hf : ∀ nameBuf eq, Computes (FindThread.step db path) Globals.SaulAtRest FindThread.Trapped
      (g, if eq then t.descend path nameBuf else { t with pc := .nextChild, nameBuf })
      (f nameBuf eq) Q) :
    Computes (FindThread.step db path) Globals.SaulAtRest FindThread.Trapped (g, t)
      (do
        let nameBuf ← dbNodeGetName db g t.child t.nameBuf
        f nameBuf (← inBounds (Buf.memcmp (t.comp path) nameBuf.chars))) Q := by
  have hturn : Computes (FindThread.step db path) Globals.SaulAtRest FindThread.Trapped (g, t)
      (do
        let nameBuf ← dbNodeGetName db g t.child t.nameBuf
        return (nameBuf, ← inBounds (Buf.memcmp (t.comp path) nameBuf.chars)))
      (fun b y => y = (g, if b.2 then t.descend path b.1 else
        { t with pc := .nextChild, nameBuf := b.1 })) := by
    refine computes_turn hg ht ?_
    simp only [FindThread.call, hpc, bind_assoc, pure_bind]
    refine congrArg some (bind_congr fun nameBuf => bind_congr fun eq => ?_)
    cases eq <;> rfl
  have hbind := hturn.bind (f := fun b => f b.1 b.2) fun b y _ _ hy => hy ▸ hf b.1 b.2
  simpa only [bind_assoc, pure_bind] using hbind

/-- **The thread gets through the inner loop of one component**, by induction on the children that it
looks at. -/
theorem computes_search {fuel : Nat} {g : Globals} {t : FindThread} (hg : g.SaulAtRest)
    (hpc : t.pc = .nextChild) (ht : t.Sheltered) :
    Computes (FindThread.step db path) Globals.SaulAtRest FindThread.Trapped (g, t)
      (searchChild db (t.comp path) fuel ⟨⟨g, t.node, t.child⟩, t.nameBuf⟩)
      (t.Searched path) := by
  induction fuel generalizing g t with
  | zero => exact .error hg (fun hne => absurd rfl hne)
  | succ fuel ih =>
    obtain ⟨pc, tok, sPos, node, child, nameBuf⟩ := t
    obtain rfl : pc = .nextChild := hpc
    -- the next child
    refine (computes_turn hg ht (f := fun c : Cursor =>
      (c.g, ⟨.isNull, tok, sPos, c.node, c.child, nameBuf⟩)) rfl).bind ?_
    rintro c _ hchild hrest rfl
    obtain ⟨hplace, hreport⟩ : SamePlace c c ∧ ReportOk False False c.child :=
      samePlace_child hg (ht.search rfl) (fun hfile => ht.child (Or.inl hfile)) hchild
    have hat : ∀ pc b, FindThread.Sheltered ⟨pc, tok, sPos, c.node, c.child, b⟩ :=
      fun _ _ => ⟨fun _ => hplace.search.report, fun _ => hplace.search, fun _ => hreport⟩
    -- whether there is one
    refine (computes_turn hrest (hat _ _) (f := fun isNull : Bool =>
      (c.g, ⟨if isNull then .stopped (.ok enoent) else .getName, tok, sPos, c.node, c.child,
        nameBuf⟩)) ?_).bind ?_
    · refine congrArg some (bind_congr fun isNull => ?_)
      cases isNull <;> rfl
    rintro isNull _ - - rfl
    cases isNull with
    | true => exact .pure hrest ⟨rfl, rfl⟩
    | false =>
      rw [if_neg (by simp)]
      refine computes_name hrest rfl (hat .getName nameBuf) ?_
      intro nameBuf' eq
      cases eq with
      | true => exact .pure hrest ⟨rfl, hreport⟩
      | false => exact ih hrest rfl (hat _ _)

/-! ## The whole lookup -/

/-- Where the thread is behind its lookup. -/
structure FindThread.Looked (found : Found) (y : Globals × FindThread) : Prop where
  pc : y.2.pc = .stopped (.ok found.code)
  node : y.2.node = found.node
  report : found.code = 0 → found.g.SaulAtRest ∧ ReportOk False False found.node

/-- **The thread gets through the outer loop**, by induction on the rounds that are left. -/
theorem computes_loop {fuel n : Nat} {g : Globals} {t : FindThread} {rest : List Char} {d : Descent}
    (hg : g.SaulAtRest) (hpc : t.pc = .outer) (hpiece : AtPiece path t.tok t.sPos rest)
    (hready : Ready db fuel ⟨⟨g, t.node, t.child⟩, t.nameBuf⟩ d)
    (hnul : ∀ comp ∈ components '/' rest, nul ∉ comp) (hplace : Place db t.node)
    (hps : ¬ Below db .ps (components '/' rest) t.node)
    (hnetif : ¬ Below db .netif (components '/' rest) t.node)
    (hnode : ReportOk False False t.node)
    (hchild : t.node.file = .saulDevices → ReportOk False False t.child) :
    Computes (FindThread.step db path) Globals.SaulAtRest FindThread.Trapped (g, t)
      (findLoop db fuel path n t.tok t.sPos ⟨⟨g, t.node, t.child⟩, t.nameBuf⟩)
      FindThread.Looked := by
  induction n generalizing g t rest d with
  | zero => exact .error hg (fun hne => absurd rfl hne)
  | succ n ih =>
    obtain ⟨pc, tok, sPos, node, child, nameBuf⟩ := t
    obtain rfl : pc = .outer := hpc
    have hat : FindThread.Sheltered ⟨.outer, tok, sPos, node, child, nameBuf⟩ :=
      ⟨fun _ => hnode, by simp, by simpa using hchild⟩
    rw [findLoop]
    cases rest with
    | nil =>
      have htok : tok = path.length := hpiece.tok_eq
      have hstep : FindThread.step db path g ⟨.outer, tok, sPos, node, child, nameBuf⟩
          = some (g, ⟨.stopped (.ok 0), tok, sPos, node, child, nameBuf⟩) := by
        simp only [FindThread.step, FindThread.call, if_pos htok]
        rfl
      rw [if_pos htok]
      exact .step hg hstep hat.unaffected (.pure hg ⟨rfl, rfl, fun _ => ⟨hg, hnode⟩⟩)
    | cons c l =>
      have hc : c ≠ '/' := fun hslash => hpiece.noSlash l (by rw [hslash])
      have hlt : tok < path.length := hpiece.tok_lt (by simp)
      rw [components_cons '/' hc, ← hpiece.drop_sPos] at hnul hps hnetif
      obtain ⟨hcomp, hnul⟩ := List.forall_mem_cons.mp hnul
      have ha₁ : assert (tok < path.length) = .ok () := assert_eq_ok.mpr (decide_eq_true hlt)
      have ha₂ : assert (sPos ≤ path.length) = .ok () :=
        assert_eq_ok.mpr (decide_eq_true hpiece.sPos_le)
      have ha₃ : assert (tok ≤ sPos) = .ok () :=
        assert_eq_ok.mpr (decide_eq_true hpiece.tok_le_sPos)
      have hnull : dbNodeIsNull db g node = .ok false := hready.notNull
      have hstep : FindThread.step db path g ⟨.outer, tok, sPos, node, child, nameBuf⟩
          = some (g, ⟨.nextChild, tok, sPos, node, child, nameBuf⟩) := by
        simp only [FindThread.step, FindThread.call, if_neg (Nat.ne_of_lt hlt), ha₁, ha₂, ha₃,
          ok_bind, hnull, Bool.not_false, assert_true]
        rfl
      have hin : FindThread.Sheltered ⟨.nextChild, tok, sPos, node, child, nameBuf⟩ :=
        ⟨by simp, fun _ => searchOk_of_below hps hnetif, by simpa using hchild⟩
      simp only [if_neg (Nat.ne_of_lt hlt), ha₁, ha₂, ha₃, ok_bind, hnull, Bool.not_false,
        assert_true]
      refine .step hg hstep hat.unaffected ((computes_search hg rfl hin).bind ?_)
      rintro ⟨found, s'⟩ y hs hy hsearched
      cases found with
      | false =>
        obtain ⟨hypc, hyn⟩ := hsearched
        have hne : ¬ enoent = 0 := by decide
        exact .pure hy ⟨hypc, hyn, fun hcode => absurd hcode hne⟩
      | true =>
        obtain ⟨rfl, hreport⟩ := hsearched
        have hpieceEq : FindThread.comp path ⟨.nextChild, tok, sPos, node, child, nameBuf⟩
            = frontPiece '/' (c :: l) := hpiece.piece_eq
        rw [hpieceEq] at hs
        have hdescend : descend db fuel d (frontPiece '/' (c :: l))
            = .ok ⟨s'.cur.g, s'.cur.child, s'.nameBuf⟩ := by
          rw [← hready.search, hs]
          rfl
        have hd : node = d.node := hready.node
        rw [hd] at hps hnetif
        have hplace' : Place db d.node := hd ▸ hplace
        exact ih hy rfl (atPiece_skip path hpiece.sPos_le) (ready_of_found db hs) hnul
          (place_of_descend hdescend hcomp hplace')
          (fun hb => hps (below_of_descend hdescend hcomp hplace' hb))
          (fun hb => hnetif (below_of_descend hdescend hcomp hplace' hb))
          hreport (fun _ => hreport)

/-- The thread has stopped with what the lookup returns. -/
theorem pc_of_looked {r : Res Found} {y : Globals × FindThread} (hr : r ≠ .error .fuel)
    (h : LeadsTo FindThread.Trapped FindThread.Looked r y) :
    y.2.pc = .stopped (Found.code <$> r) ∧ ∀ found, r = .ok found → FindThread.Looked found y := by
  cases r with
  | error e =>
    refine ⟨h fun he => hr (by rw [he]), ?_⟩
    rintro found ⟨⟩
  | ok found =>
    refine ⟨h.pc, ?_⟩
    rintro found ⟨⟩
    exact h

/--
**A lookup that stays above the fields of processes and interfaces cannot be disturbed by other
threads.** After any history and whatever the others do between its calls, it needs the number of
steps that it needs alone, it can always take the next one, and it ends with the code and the node
that it finds alone; and the node that it has found says what it says alone.
-/
theorem lookup_among_threads (db : Db) (neighbours : List NeighborEntryl) (ops : List DbOp)
    (s : Session) (hist : History db (.boot neighbours) ops s) (path : CString)
    (hps : ¬ Below db .ps (pathComponents path) dbGetRoot)
    (hnetif : ¬ Below db .netif (pathComponents path) dbGetRoot) (fuel : Nat) (child : DbNode)
    (nameBuf : NameBuf) (hfuel : dbFindNodeByPath db fuel s.g path child nameBuf ≠ .error .fuel) :
    ∃ n, ∀ (turns : List (Turn ForeignCall)) (z : Globals × FindThread),
      run (threadsStep db path) (s.g, .start path child nameBuf) turns = some z →
        ownTurns turns ≤ n ∧
        (ownTurns turns < n → ∃ u, threadsStep db path z .own = some u) ∧
        (ownTurns turns = n →
          z.2.pc = .stopped (Found.code <$> dbFindNodeByPath db fuel s.g path child nameBuf) ∧
          ∀ found, dbFindNodeByPath db fuel s.g path child nameBuf = .ok found →
            z.2.node = found.node ∧
            (found.code = 0 → report db z.1 z.2.node = report db found.g found.node)) := by
  have hg : s.g.SaulAtRest := kept_saulFieldCount.history hist rfl
  have hpiece := atPiece_skip path (Nat.zero_le path.length)
  rw [List.drop_zero] at hpiece
  have hcomps : components '/' (path.chars.dropWhile (· = '/')) = pathComponents path :=
    components_dropWhile _ _
  obtain ⟨n, y, hpass, -, hlooked⟩ := computes_loop
    (t := FindThread.start path child nameBuf) hg rfl hpiece (ready_start db fuel s.g child nameBuf)
    (by rw [hcomps]; exact fun _ h => nul_not_mem_component h) (Or.inl ⟨.root 0, rfl⟩)
    (by rw [hcomps]; exact hps) (by rw [hcomps]; exact hnetif) trivial
    (fun hfile => nomatch hfile)
  obtain ⟨hpc, hfound⟩ := pc_of_looked hfuel hlooked
  refine ⟨n, fun turns z hrun => ?_⟩
  have hstop : ∀ g, FindThread.step db path g y.2 = none := by
    intro g
    rw [FindThread.step, FindThread.call, hpc]
    rfl
  obtain ⟨hz, hle, hend, hgo⟩ := hpass.among (fun _ _ _ => saulAtRest_exec) hstop hg hrun
  refine ⟨hle, hgo, fun hn => ?_⟩
  rw [hend hn]
  refine ⟨hpc, fun found hok => ?_⟩
  obtain ⟨-, hnode, hreport⟩ := hfound found hok
  refine ⟨hnode, fun hcode => ?_⟩
  obtain ⟨hrest, hok⟩ := hreport hcode
  rw [hnode]
  exact report_alone hz hrest hok

theorem lookup_among_threads_name :
    ∃ n, ∀ (turns : List (Turn ForeignCall)) (z : Globals × FindThread),
      run (threadsStep smallDb (.lit "/board/name"))
          ({ fieldCount := 1 }, .start (.lit "/board/name") .null (Buf.zero _)) turns = some z →
        ownTurns turns ≤ n ∧
        (ownTurns turns < n → ∃ u, threadsStep smallDb (.lit "/board/name") z .own = some u) ∧
        (ownTurns turns = n →
          z.2.pc = .stopped (Found.code <$>
            dbFindNodeByPath smallDb 8 { fieldCount := 1 } (.lit "/board/name") .null (Buf.zero _)) ∧
          ∀ found, dbFindNodeByPath smallDb 8 { fieldCount := 1 } (.lit "/board/name") .null
              (Buf.zero _) = .ok found →
            z.2.node = found.node ∧
            (found.code = 0 → report smallDb z.1 z.2.node = report smallDb found.g found.node)) :=
  lookup_among_threads smallDb [] [.find (.lit "/runtime/ps/idle/state")]
    ⟨{ fieldCount := 1 }, [.ps 1 .field]⟩
    (.cons ⟨.null, Buf.zero _, Buf.zero _⟩ 8 (by decide) (.nil _)) (.lit "/board/name") (by decide)
    (by decide) 8 .null _ (by decide)

end Dca
