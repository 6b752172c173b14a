import Dca.Db.FieldNames
import Dca.Db.Report

/-!
# Lookups after different histories

Two lookups of one path run side by side. They stay in step as long as the counters agree that
the levels below read: `_field_count` below a process, `_num_neighbours` past the fields of an
interface. The other counters do not come from the history: `_saul_field_count` is always 0 and the
constructor of `/network/netif` resets its two on the way.

So the history matters exactly through `_field_count` and `_num_neighbours`
(`lookup_after_history`), and it does matter: after `/runtime/ps/idle/state` has been found,
`/runtime/ps/idle/pid` is not (`not_historyIndependent`).
-/

namespace Dca

open CLib

variable (db : Db)

/-! ## Cursors in step -/

/-- The source file with the operations of a node. -/
inductive NodeFile where
  | dbNode | db | dbFl | ps | saulDevices | netif
  deriving DecidableEq

def DbNode.file : DbNode → NodeFile
  | .null => .dbNode
  | .root _ => .db
  | .fl _ _ _ => .dbFl
  | .ps _ _ => .ps
  | .saul _ _ => .saulDevices
  | .netif _ _ => .netif

def DbNode.IsNetif : DbNode → Prop
  | .netif _ _ => True
  | _ => False

/-- The counters agree that are needed: `f` and `n` say whether those of the history do. -/
structure Agree (f n k : Prop) (g₁ g₂ : Globals) : Prop where
  neighbours : g₁.neighbours = g₂.neighbours
  saul : g₁.saulFieldCount = g₂.saulFieldCount
  field : f → g₁.fieldCount = g₂.fieldCount
  num : n → g₁.numNeighbours = g₂.numNeighbours
  counters : k → g₁.netifFieldCount = g₂.netifFieldCount ∧
    g₁.netifSubFieldCount = g₂.netifSubFieldCount

/-- What has to agree for a search among the children of a node. -/
def SearchOk (f n : Prop) : DbNode → Prop
  | .ps _ .process | .ps _ .field => f
  | .netif _ .iface | .netif _ .field | .netif _ .neighbour | .netif _ .qos => n
  | _ => True

/-- What has to agree for the report of a node. -/
def ReportOk (f n : Prop) : DbNode → Prop
  | .ps _ .field => f
  | .netif _ .field | .netif _ .neighbour | .netif _ .qos => n
  | _ => True

/-- Two cursors that stand at the same place. -/
structure Lockstep (f n : Prop) (c₁ c₂ : Cursor) : Prop where
  node : c₁.node = c₂.node
  child : c₁.child = c₂.child
  agree : Agree f n (c₁.node.IsNetif ∨ c₁.child.IsNetif) c₁.g c₂.g
  search : SearchOk f n c₁.node
  report : ReportOk f n c₁.child

variable {db} {f n k : Prop}

theorem SearchOk.report {node : DbNode} (h : SearchOk f n node) : ReportOk f n node := by
  cases node with
  | ps pid level =>
    cases level with
    | root | process => trivial
    | field => exact h
  | netif iface level =>
    cases level with
    | root | iface => trivial
    | field | neighbour | qos => exact h
  | null | root _ | fl _ _ _ | saul _ _ => trivial

namespace Agree

variable {g₁ g₂ : Globals}

theorem mono {k' : Prop} (h : Agree f n k g₁ g₂) (hk : k' → k) : Agree f n k' g₁ g₂ :=
  ⟨h.neighbours, h.saul, h.field, h.num, fun hk' => h.counters (hk hk')⟩

theorem setField (h : Agree f n k g₁ g₂) (x : Int8) :
    Agree f n k { g₁ with fieldCount := x } { g₂ with fieldCount := x } :=
  ⟨h.neighbours, h.saul, fun _ => rfl, h.num, h.counters⟩

theorem setSaul (h : Agree f n k g₁ g₂) (x : Int8) :
    Agree f n k { g₁ with saulFieldCount := x } { g₂ with saulFieldCount := x } :=
  ⟨h.neighbours, rfl, h.field, h.num, h.counters⟩

/-- The constructor of the interface list makes the two counters of `netif.c` agree. -/
theorem call (h : Agree f n k g₁ g₂) (env : Env) (fn : GetNodeFn) :
    Agree f n (fn.call env g₁).2.IsNetif (fn.call env g₁).1 (fn.call env g₂).1 := by
  cases fn with
  | dbNewPsNode => exact h.mono (fun hk => hk.elim)
  | dbNewSaulNode => exact h.mono (fun hk => hk.elim)
  | dbNewNetifNode => exact ⟨h.neighbours, h.saul, h.field, h.num, fun _ => ⟨rfl, rfl⟩⟩

theorem report (h : Agree f n k g₁ g₂) {node : DbNode} (hr : ReportOk f n node)
    (hk : node.IsNetif → k) : Dca.report db g₁ node = Dca.report db g₂ node := by
  cases node with
  | null => rfl
  | root idx => rfl
  | fl flIdx subIdx isRoot => exact report_fl g₁ g₂ flIdx subIdx isRoot
  | saul dev level => exact report_saul dev level h.saul
  | ps pid level =>
    refine report_ps ?_
    rintro rfl
    exact h.field hr
  | netif iface level =>
    have hc := h.counters (hk trivial)
    cases level with
    | root | iface => exact report_netif_inner g₁ g₂ iface trivial
    | field | neighbour | qos =>
      exact report_netif iface _ hc.1 hc.2 (h.num hr) h.neighbours

end Agree

/-! ## One child -/

variable {g₁ g₂ : Globals} {child : DbNode}

theorem root_lockstep {idx : UInt8} (h : Agree f n (False ∨ child.IsNetif) g₁ g₂) :
    Lockstep f n (rootGetNextChild db ⟨g₁, .root idx, child⟩ idx)
      (rootGetNextChild db ⟨g₂, .root idx, child⟩ idx) := by
  have ha : Agree f n (False ∨ False) g₁ g₂ := h.mono (by simp)
  unfold rootGetNextChild
  split_ifs
  · exact ⟨rfl, rfl, ha, trivial, trivial⟩
  · exact ⟨rfl, rfl, ha, trivial, trivial⟩

theorem fl_lockstep {flIdx subIdx : UInt8} {isRoot : Bool}
    (h : Agree f n (False ∨ child.IsNetif) g₁ g₂) :
    Both (Lockstep f n)
      (flNodeGetnextChild db ⟨g₁, .fl flIdx subIdx isRoot, child⟩ flIdx subIdx isRoot)
      (flNodeGetnextChild db ⟨g₂, .fl flIdx subIdx isRoot, child⟩ flIdx subIdx isRoot) := by
  have ha : Agree f n (False ∨ False) g₁ g₂ := h.mono (by simp)
  unfold flNodeGetnextChild
  refine Both.bind_eq ?_
  intro e _
  split_ifs with hr hs
  · exact .ok ⟨rfl, rfl, ha, trivial, trivial⟩
  · dsimp only
    split
    · next d hd =>
      have hcall := h.call db.env d.getNodeFn
      refine .ok ⟨rfl, ?_, hcall.mono (by simp [DbNode.IsNetif]), trivial, ?_⟩
      · cases d.getNodeFn <;> rfl
      · cases d.getNodeFn <;> trivial
    · exact .ok ⟨rfl, rfl, ha, trivial, trivial⟩
  · exact .ok ⟨rfl, rfl, ha, trivial, trivial⟩

theorem ps_lockstep {pid : Nat} {level : PsLevel} (h : Agree f n (False ∨ child.IsNetif) g₁ g₂)
    (hs : SearchOk f n (.ps pid level)) (hr : ReportOk f n child) :
    Both (Lockstep f n) (psNodeGetnextChild db.env ⟨g₁, .ps pid level, child⟩ pid level)
      (psNodeGetnextChild db.env ⟨g₂, .ps pid level, child⟩ pid level) := by
  have ha : Agree f n (False ∨ False) g₁ g₂ := h.mono (by simp)
  cases level with
  | root =>
    simp only [psNodeGetnextChild]
    split_ifs
    · refine Both.bind_eq ?_
      intro next _
      exact .ok ⟨rfl, rfl, ha, trivial, trivial⟩
    · exact .ok ⟨rfl, rfl, ha, trivial, trivial⟩
  | process =>
    simp only [psNodeGetnextChild, h.field hs]
    split_ifs
    · refine Both.bind_eq ?_
      intro next _
      exact .ok ⟨rfl, rfl, ha, hs, hs⟩
    · exact .ok ⟨rfl, rfl, h, hs, hr⟩
  | field =>
    simp only [psNodeGetnextChild, h.field hs]
    split_ifs
    · exact .ok ⟨rfl, rfl, ha.setField 0, hs, trivial⟩
    · exact .ok ⟨rfl, rfl, h.setField _, hs, hr⟩

theorem saul_lockstep {dev : Option Nat} {level : SaulLevel}
    (h : Agree f n (False ∨ child.IsNetif) g₁ g₂) (hr : ReportOk f n child) :
    Both (Lockstep f n) (saulNodeGetnextChild db.env ⟨g₁, .saul dev level, child⟩ dev level)
      (saulNodeGetnextChild db.env ⟨g₂, .saul dev level, child⟩ dev level) := by
  have ha : Agree f n (False ∨ False) g₁ g₂ := h.mono (by simp)
  cases level with
  | root =>
    cases dev with
    | none => exact .ok ⟨rfl, rfl, ha, trivial, trivial⟩
    | some i => exact .ok ⟨rfl, rfl, ha, trivial, trivial⟩
  | device =>
    cases dev with
    | none => exact .ok ⟨rfl, rfl, h, trivial, hr⟩
    | some i =>
      simp only [saulNodeGetnextChild, h.saul]
      split_ifs
      · exact .ok ⟨rfl, rfl, ha, trivial, trivial⟩
      · exact .ok ⟨rfl, rfl, h, trivial, hr⟩
  | field =>
    simp only [saulNodeGetnextChild, h.saul]
    split_ifs
    · exact .ok ⟨rfl, rfl, ha.setSaul 0, trivial, trivial⟩
    · exact .ok ⟨rfl, rfl, h.setSaul _, trivial, hr⟩

/-- The list of interfaces does not look at the counters. -/
theorem netif_root_lockstep {iface : Option Nat} (h : Agree f n True g₁ g₂) :
    Both (Lockstep f n) (netifNodeGetnextChild db.env ⟨g₁, .netif iface .root, child⟩)
      (netifNodeGetnextChild db.env ⟨g₂, .netif iface .root, child⟩) := by
  cases iface with
  | none => exact .ok ⟨rfl, rfl, h.mono (by simp), trivial, trivial⟩
  | some i => exact .ok ⟨rfl, rfl, h.mono (by simp), trivial, trivial⟩

/-- Where all the counters of `netif.c` agree, at most `_field_count` differs. -/
theorem Agree.eq_setField (h : Agree f n True g₁ g₂) (hn : n) :
    g₂ = { g₁ with fieldCount := g₂.fieldCount } := by
  obtain ⟨hfield, hsub⟩ := h.counters trivial
  have hnum := h.num hn
  have hnb := h.neighbours
  have hsaul := h.saul
  clear h
  cases g₁
  cases g₂
  simp only at hnb hsaul hnum hfield hsub
  subst hnb hsaul hnum hfield hsub
  rfl

/-- The cursor with another `_field_count`. -/
def Cursor.setField (x : Int8) (c : Cursor) : Cursor :=
  { c with g := { c.g with fieldCount := x } }

variable (db) in
/-- The functions of `netif.c` neither read nor write `_field_count`. -/
theorem netifGetnextChildDepth_setField (x : Int8) (d : Nat) (c : Cursor) :
    netifGetnextChildDepth db.env d (c.setField x)
      = Cursor.setField x <$> netifGetnextChildDepth db.env d c := by
  induction d generalizing c with
  | zero => rfl
  | succ d ih =>
    obtain ⟨g, node, child⟩ := c
    rw [netifGetnextChildDepth, netifGetnextChildDepth]
    -- the recursive call is made on a cursor that differs in the same way
    have hnext : ∀ (node : DbNode) (iface : Option Nat),
        netifNextNeighbour (netifGetnextChildDepth db.env d) (Cursor.setField x ⟨g, node, child⟩)
            iface
          = Cursor.setField x
            <$> netifNextNeighbour (netifGetnextChildDepth db.env d) ⟨g, node, child⟩ iface := by
      intro node iface
      dsimp only [netifNextNeighbour]
      split_ifs with h₁ h₂ h₂
      · rfl
      · exact absurd h₁ h₂
      · exact absurd h₂ h₁
      · exact ih ⟨{ g with numNeighbours := g.numNeighbours - 1, netifSubFieldCount := 1 },
          .netif iface .neighbour, child⟩
    cases node with
    | null | root _ | fl _ _ _ | ps _ _ | saul _ _ => rfl
    | netif iface level =>
      cases level with
      | root => cases iface <;> rfl
      | iface =>
        dsimp only [netifGetnextChildBody, Cursor.setField]
        split_ifs <;> rfl
      | field =>
        dsimp only [netifGetnextChildBody, Cursor.setField]
        split_ifs <;> rfl
      | neighbour =>
        dsimp only [netifGetnextChildBody, Cursor.setField] at hnext ⊢
        split_ifs
        · rfl
        · rfl
        · rfl
        · exact hnext _ _
      | qos =>
        dsimp only [netifGetnextChildBody, Cursor.setField] at hnext ⊢
        split_ifs
        · rfl
        · rfl
        · exact hnext _ _

/-- A step of `netif.c` stays in `netif.c`. -/
theorem ChildStep.of_netif {iface : Option Nat} {level : NetifLevel} {c' : Cursor}
    (h : ChildStep db ⟨g₁, .netif iface level, child⟩ c') :
    c'.node.IsNetif ∧ (c'.child.IsNetif ∨ c'.child = .null ∨ c'.child = child) := by
  cases h <;> simp [DbNode.IsNetif]

theorem SearchOk.of_netif {node : DbNode} (h : node.IsNetif) (hn : n) : SearchOk f n node := by
  cases node with
  | netif iface level =>
    cases level with
    | root => trivial
    | iface | field | neighbour | qos => exact hn
  | null | root _ | fl _ _ _ | ps _ _ | saul _ _ => exact h.elim

theorem netif_lockstep {iface : Option Nat} {level : NetifLevel} (h : Agree f n True g₁ g₂)
    (hn : n) (hr : ReportOk f n child) :
    Both (Lockstep f n) (netifNodeGetnextChild db.env ⟨g₁, .netif iface level, child⟩)
      (netifNodeGetnextChild db.env ⟨g₂, .netif iface level, child⟩) := by
  -- the two states differ in `_field_count` only, which `netif.c` neither reads nor writes
  have hg := h.eq_setField hn
  have hframe := fun x =>
    netifGetnextChildDepth_setField db x 2 ⟨g₁, .netif iface level, child⟩
  have h₂ : netifNodeGetnextChild db.env ⟨g₂, .netif iface level, child⟩
      = Cursor.setField g₂.fieldCount
        <$> netifNodeGetnextChild db.env ⟨g₁, .netif iface level, child⟩ := by
    rw [hg]
    exact hframe _
  have h₁ := hframe g₁.fieldCount
  rw [h₂]
  cases hc : netifNodeGetnextChild db.env ⟨g₁, .netif iface level, child⟩ with
  | error t => exact .error t
  | ok c' =>
    have hstep := ChildStep.of_netif (netif_childStep hc)
    have hfield : c'.g.fieldCount = g₁.fieldCount := by
      have hc' : netifGetnextChildDepth db.env 2 ⟨g₁, .netif iface level, child⟩ = .ok c' := hc
      have hset : Cursor.setField g₁.fieldCount ⟨g₁, .netif iface level, child⟩
          = ⟨g₁, .netif iface level, child⟩ := rfl
      rw [hset, hc'] at h₁
      exact congrArg (fun c => c.g.fieldCount) (Except.ok.inj h₁)
    refine .ok ⟨rfl, rfl, ⟨rfl, rfl, ?_, fun _ => rfl, fun _ => ⟨rfl, rfl⟩⟩, ?_, ?_⟩
    · intro hf
      show c'.g.fieldCount = g₂.fieldCount
      rw [hfield]
      exact h.field hf
    · exact .of_netif hstep.1 hn
    · rcases hstep.2 with hnet | hnull | hchild
      · exact (SearchOk.of_netif hnet hn).report
      · rw [hnull]
        trivial
      · rw [hchild]
        exact hr

/-- **Two cursors in step stay in step.** -/
theorem nextChild_lockstep {c₁ c₂ : Cursor} (h : Lockstep f n c₁ c₂) :
    Both (Lockstep f n) (dbNodeGetNextChild db c₁) (dbNodeGetNextChild db c₂) := by
  obtain ⟨g₁, node, child⟩ := c₁
  obtain ⟨g₂, node₂, child₂⟩ := c₂
  obtain ⟨hnode, hchild, ha, hs, hr⟩ := h
  obtain rfl : node = node₂ := hnode
  obtain rfl : child = child₂ := hchild
  cases node with
  | null => exact .error _
  | root idx => exact .ok (root_lockstep ha)
  | fl flIdx subIdx isRoot => exact fl_lockstep ha
  | ps pid level => exact ps_lockstep ha hs hr
  | saul dev level => exact saul_lockstep ha hr
  | netif iface level =>
    have ha' : Agree f n True g₁ g₂ := ha.mono (by simp [DbNode.IsNetif])
    cases level with
    | root => exact netif_root_lockstep ha'
    | iface | field | neighbour | qos => exact netif_lockstep ha' hs hr

/-! ## One component -/

theorem searchChild_lockstep {comp : List Char} {fuel : Nat} {s₁ s₂ : Search}
    (h : Lockstep f n s₁.cur s₂.cur) (hb : s₁.nameBuf = s₂.nameBuf) :
    Both (fun r₁ r₂ => r₁.1 = r₂.1 ∧ Lockstep f n r₁.2.cur r₂.2.cur ∧
        r₁.2.nameBuf = r₂.2.nameBuf)
      (searchChild db comp fuel s₁) (searchChild db comp fuel s₂) := by
  induction fuel generalizing s₁ s₂ with
  | zero => exact .error _
  | succ fuel ih =>
    refine (nextChild_lockstep h).bind ?_
    intro c₁ c₂ hc
    have hreport : report db c₁.g c₁.child = report db c₂.g c₁.child :=
      hc.agree.report hc.report Or.inr
    rw [hc.child] at hreport
    have htype : dbNodeIsNull db c₁.g c₁.child = dbNodeIsNull db c₂.g c₂.child := by
      have ht : dbNodeGetType db c₁.g c₂.child = dbNodeGetType db c₂.g c₂.child :=
        congrArg Report.type hreport
      rw [dbNodeIsNull, dbNodeIsNull, hc.child, ht]
    have hname : dbNodeGetName db c₁.g c₁.child s₁.nameBuf
        = dbNodeGetName db c₂.g c₂.child s₂.nameBuf := by
      rw [hc.child, hb]
      exact congrFun (congrArg Report.name hreport) s₂.nameBuf
    -- type and name are the same in both runs, and so both take the same branch
    rw [htype]
    refine Both.bind_eq ?_
    intro isNull _
    split_ifs
    · exact .ok ⟨rfl, hc, hb⟩
    · rw [hname]
      refine Both.bind_eq ?_
      intro nameBuf _
      refine Both.bind_eq ?_
      intro eq _
      split_ifs
      · exact .ok ⟨rfl, hc, rfl⟩
      · exact ih hc rfl

variable (db) in
/-- Two descents that have come to the same node. -/
structure Together (f n : Prop) (d₁ d₂ : Descent) : Prop where
  node : d₁.node = d₂.node
  nameBuf : d₁.nameBuf = d₂.nameBuf
  agree : Agree f n d₁.node.IsNetif d₁.g d₂.g
  report : Dca.report db d₁.g d₁.node = Dca.report db d₂.g d₁.node

variable (db) in
/-- Two descents that end in the same way. -/
inductive SameOutcome (f n : Prop) : Except Stop Descent → Except Stop Descent → Prop where
  | found {d₁ d₂ : Descent} (h : Together db f n d₁ d₂) : SameOutcome f n (.ok d₁) (.ok d₂)
  | notFound (g₁ g₂ : Globals) (n₁ n₂ : DbNode) :
      SameOutcome f n (.error (.notFound g₁ n₁)) (.error (.notFound g₂ n₂))
  | trap (t : Trap) : SameOutcome f n (.error (.trap t)) (.error (.trap t))

theorem descend_together {fuel : Nat} {comp : List Char} {d₁ d₂ : Descent}
    (h : Together db f n d₁ d₂) (hs : SearchOk f n d₁.node) :
    SameOutcome db f n (descend db fuel d₁ comp) (descend db fuel d₂ comp) := by
  have hlock : Lockstep f n ⟨d₁.g, d₁.node, d₁.node⟩ ⟨d₂.g, d₂.node, d₂.node⟩ :=
    ⟨h.node, h.node, h.agree.mono (by simp), hs, hs.report⟩
  have hsearch : Both _
      (searchChild db comp fuel ⟨⟨d₁.g, d₁.node, d₁.node⟩, d₁.nameBuf⟩)
      (searchChild db comp fuel ⟨⟨d₂.g, d₂.node, d₂.node⟩, d₂.nameBuf⟩) :=
    searchChild_lockstep hlock h.nameBuf
  unfold descend
  generalize searchChild db comp fuel ⟨⟨d₁.g, d₁.node, d₁.node⟩, d₁.nameBuf⟩ = r₁ at hsearch ⊢
  generalize searchChild db comp fuel ⟨⟨d₂.g, d₂.node, d₂.node⟩, d₂.nameBuf⟩ = r₂ at hsearch ⊢
  cases hsearch with
  | error t => exact .trap t
  | ok hr =>
    rename_i a b
    obtain ⟨found, s₁⟩ := a
    obtain ⟨found₂, s₂⟩ := b
    obtain ⟨hf, hc, hb⟩ := hr
    obtain rfl : found = found₂ := hf
    cases found with
    | false => exact .notFound _ _ _ _
    | true =>
      exact .found ⟨hc.child, hb, hc.agree.mono Or.inr, hc.agree.report hc.report Or.inr⟩

/-! ## Paths that go below a list -/

/-- The lists whose entries have levels of their own: processes, devices and interfaces. -/
def DbNode.isList : DbNode → Bool
  | .ps _ .root | .saul _ .root | .netif _ .root => true
  | _ => false

variable (db) in
/-- Looked up from a node on, the components reach below an entry of the list of a source file. -/
def Below (file : NodeFile) : List (List Char) → DbNode → Prop
  | [], _ => False
  | comp :: comps, node =>
    if node.file = file then node.isList = false ∨ comps ≠ []
    else
      match tableStep db node comp with
      | .ok child => Below file comps child
      | .error _ => False

instance Below.decidable (file : NodeFile) : (comps : List (List Char)) → (node : DbNode) →
    Decidable (Below db file comps node)
  | [], _ => inferInstanceAs (Decidable False)
  | comp :: comps, node =>
    if h : node.file = file then
      decidable_of_iff (node.isList = false ∨ comps ≠ []) (by rw [Below, if_pos h])
    else
      match ht : tableStep db node comp with
      | .ok child =>
        @decidable_of_iff _ (Below db file comps child) (by rw [Below, if_neg h, ht])
          (Below.decidable file comps child)
      | .error _ => isFalse (by rw [Below, if_neg h, ht]; exact id)

variable (db) in
/-- Looked up from a node on, the components lead past the fields of an interface. -/
def PastInterface : List (List Char) → DbNode → Prop
  | [], _ => False
  | comp :: comps, node =>
    if node.file = .netif then PastFields netifFieldNames comps
    else
      match tableStep db node comp with
      | .ok child => PastInterface comps child
      | .error _ => False

instance PastInterface.decidable : (comps : List (List Char)) → (node : DbNode) →
    Decidable (PastInterface db comps node)
  | [], _ => inferInstanceAs (Decidable False)
  | comp :: comps, node =>
    if h : node.file = .netif then
      decidable_of_iff (PastFields netifFieldNames comps) (by rw [PastInterface, if_pos h])
    else
      match ht : tableStep db node comp with
      | .ok child =>
        @decidable_of_iff _ (PastInterface db comps child) (by rw [PastInterface, if_neg h, ht])
          (PastInterface.decidable comps child)
      | .error _ => isFalse (by rw [PastInterface, if_neg h, ht]; exact id)

/-- The files of dynamic entries. -/
def NodeFile.Dynamic : NodeFile → Prop
  | .ps | .saulDevices | .netif => True
  | .dbNode | .db | .dbFl => False

theorem ChildStep.file {c c' : Cursor} (h : ChildStep db c c') (hd : c.node.file.Dynamic) :
    c'.node.file = c.node.file ∧
      (c'.child.file = c.node.file ∨ c'.child = .null ∨ c'.child = c.child) := by
  cases h <;> simp_all [DbNode.file, NodeFile.Dynamic]

theorem tableStep_dynamic {node : DbNode} (hd : node.file.Dynamic) (comp : List Char) :
    tableStep db node comp = .error .below := by
  cases node with
  | null | root _ | fl _ _ _ => exact hd.elim
  | ps _ _ | saul _ _ | netif _ _ => rfl

/-- The children of a dynamic node belong to its source file. -/
theorem descend_file {fuel : Nat} {d d' : Descent} {comp : List Char}
    (h : descend db fuel d comp = .ok d') (hd : d.node.file.Dynamic) :
    d'.node.file = d.node.file := by
  obtain ⟨s', hs, rfl, hne⟩ := descend_eq_ok h
  have hinv := searchChild_invariant
    (I := fun c => c.node.file = d.node.file ∧ (c.child.file = d.node.file ∨ c.child = .null))
    (fun hstep hc => by
      obtain ⟨hn, hc'⟩ := hstep.file (by rw [hc.1]; exact hd)
      refine ⟨hn.trans hc.1, ?_⟩
      rcases hc' with h₁ | h₁ | h₁
      · exact Or.inl (h₁.trans hc.1)
      · exact Or.inr h₁
      · rw [h₁]
        exact hc.2) hs ⟨rfl, Or.inl rfl⟩
  exact hinv.2.resolve_right hne

/-- The places where a lookup stands between two components. -/
def Place (db : Db) (node : DbNode) : Prop :=
  (TableNode db node ∧ node.withPos 0 = node) ∨ node.file.Dynamic

theorem TableChild.place {node : DbNode} (h : TableChild db node) : Place db node := by
  cases h with
  | table htable hpos => exact Or.inl ⟨htable, hpos⟩
  | dynamic fn => cases fn <;> exact Or.inr trivial

theorem tableStep_of_descend {fuel : Nat} {d d' : Descent} {comp : List Char}
    (h : descend db fuel d comp = .ok d') (hcomp : nul ∉ comp) (hn : TableNode db d.node)
    (hpos : d.node.withPos 0 = d.node) : tableStep db d.node comp = .ok d'.node := by
  rcases descend_tableStep hn hpos hcomp fuel d.g d.nameBuf with hf | ⟨-, hfuel⟩
  · have h' : descend db fuel ⟨d.g, d.node, d.nameBuf⟩ comp = .ok d' := h
    rw [h'] at hf
    generalize tableStep db d.node comp = r at hf ⊢
    cases hf with
    | reached g node nameBuf => rfl
  · have h' : descend db fuel ⟨d.g, d.node, d.nameBuf⟩ comp = .ok d' := h
    rw [h'] at hfuel
    simp at hfuel

theorem place_of_descend {fuel : Nat} {d d' : Descent} {comp : List Char}
    (h : descend db fuel d comp = .ok d') (hcomp : nul ∉ comp) (hp : Place db d.node) :
    Place db d'.node := by
  rcases hp with ⟨hn, hpos⟩ | hd
  · exact (tableStep_child hn (tableStep_of_descend h hcomp hn hpos)).place
  · refine Or.inr ?_
    rw [descend_file h hd]
    exact hd

/-- What goes below an entry after a component goes below it with that component. -/
theorem below_of_descend {file : NodeFile} {fuel : Nat} {d d' : Descent} {comp : List Char}
    {comps : List (List Char)} (h : descend db fuel d comp = .ok d') (hcomp : nul ∉ comp)
    (hp : Place db d.node) (hb : Below db file comps d'.node) :
    Below db file (comp :: comps) d.node := by
  cases comps with
  | nil => exact hb.elim
  | cons comp' comps =>
    rw [Below]
    split_ifs with hfile
    · exact Or.inr (List.cons_ne_nil _ _)
    · rcases hp with ⟨hn, hpos⟩ | hd
      · rw [tableStep_of_descend h hcomp hn hpos]
        exact hb
      · have hd' := descend_file h hd
        rw [Below, hd', if_neg hfile, tableStep_dynamic (by rw [hd']; exact hd)] at hb
        exact hb.elim

/-- A search among the children of an entry is what goes below the list. -/
theorem searchOk_of_below {node : DbNode} {comp : List Char} {comps : List (List Char)}
    (hf : Below db .ps (comp :: comps) node → f) (hn : Below db .netif (comp :: comps) node → n) :
    SearchOk f n node := by
  rw [Below] at hf hn
  cases node with
  | null | root _ | fl _ _ _ | saul _ _ => trivial
  | ps pid level =>
    cases level with
    | root => trivial
    | process | field => exact hf (Or.inl rfl)
  | netif iface level =>
    cases level with
    | root => trivial
    | iface | field | neighbour | qos => exact hn (Or.inl rfl)

/-- What leads past the fields after a component does so with that component. -/
theorem past_of_descend {fuel : Nat} {d d' : Descent} {comp : List Char}
    {comps : List (List Char)} (h : descend db fuel d comp = .ok d') (hcomp : nul ∉ comp)
    (hp : Place db d.node) (hfile : d.node.file ≠ .netif) (hb : PastInterface db comps d'.node) :
    PastInterface db (comp :: comps) d.node := by
  rw [PastInterface, if_neg hfile]
  rcases hp with ⟨hn, hpos⟩ | hd
  · rw [tableStep_of_descend h hcomp hn hpos]
    exact hb
  · have hd' := descend_file h hd
    cases comps with
    | nil => exact hb.elim
    | cons comp' comps =>
      rw [PastInterface, hd', if_neg hfile, tableStep_dynamic (by rw [hd']; exact hd)] at hb
      exact hb.elim

/-- Outside `netif.c` a search looks at `_field_count` at most. -/
theorem searchOk_of_file {node : DbNode} {comp : List Char} {comps : List (List Char)}
    (hfile : node.file ≠ .netif) (hf : Below db .ps (comp :: comps) node → f) :
    SearchOk f n node := by
  rw [Below] at hf
  cases node with
  | null | root _ | fl _ _ _ | saul _ _ => trivial
  | ps pid level =>
    cases level with
    | root => trivial
    | process | field => exact hf (Or.inl rfl)
  | netif iface level => exact absurd rfl hfile

/-! ## Interfaces -/

/-- The child that a descent finds is what the last child step led to. -/
theorem descend_leads {I J : Cursor → Prop}
    (hi : ∀ {c c' : Cursor}, ChildStep db c c' → I c → I c' ∧ J c') {fuel : Nat} {d d' : Descent}
    {comp : List Char} (h : descend db fuel d comp = .ok d') (hd : I ⟨d.g, d.node, d.node⟩) :
    ∃ c, J c ∧ c.g = d'.g ∧ c.child = d'.node ∧ c.child ≠ .null := by
  obtain ⟨s', hs, rfl, hne⟩ := descend_eq_ok h
  exact ⟨s'.cur, searchChild_leads hi hs hd, rfl, rfl, hne⟩

/-- The constructor of the interface list puts the position in front of the first field. -/
def ListStart (d : Descent) : Prop :=
  d.node.file = .netif → (∃ iface, d.node = .netif iface .root) ∧ d.g.netifFieldCount = 0

theorem listStart_of_descend {fuel : Nat} {d d' : Descent} {comp : List Char}
    (h : descend db fuel d comp = .ok d') (hd : d.node.file ≠ .netif) : ListStart d' := by
  by_cases hdyn : d.node.file.Dynamic
  · intro hfile
    exact absurd ((descend_file h hdyn).symm.trans hfile) hd
  · obtain ⟨c, hc, hg, hchild, -⟩ := descend_leads
      (I := fun c => ¬ c.node.file.Dynamic) (J := fun c => ListStart ⟨c.g, c.child, Buf.zero _⟩)
      (fun hstep hc => by
        cases hstep with
        | dynamic g child flIdx subIdx f =>
          refine ⟨hc, ?_⟩
          cases f <;> simp [ListStart, DbNode.file, GetNodeFn.call, dbNewNetifNode, dbNewPsNode,
            dbNewSaulNode, netifNodeInit, psNodeInit, saulNodeInit]
        | _ => simp_all [ListStart, DbNode.file, NodeFile.Dynamic]) h hdyn
    rw [ListStart, ← hg, ← hchild]
    exact hc

/-- The entries of the interface list are interfaces, in front of their first field. -/
theorem iface_of_descend {fuel : Nat} {d d' : Descent} {comp : List Char} {iface : Option Nat}
    (h : descend db fuel d comp = .ok d') (hd : d.node = .netif iface .root) :
    ∃ i, d'.node = .netif (some i) .iface ∧ d'.g.netifFieldCount = d.g.netifFieldCount := by
  obtain ⟨c, ⟨hcount, hiface⟩, hg, hchild, hne⟩ := descend_leads
    (I := fun c => (∃ j, c.node = .netif j .root) ∧ c.g.netifFieldCount = d.g.netifFieldCount)
    (J := fun c => c.g.netifFieldCount = d.g.netifFieldCount ∧
      (c.child = .null ∨ ∃ i, c.child = .netif (some i) .iface))
    (fun hstep hc => by
      obtain ⟨⟨j, hj⟩, hcount⟩ := hc
      cases hstep with
      | iface g child i => exact ⟨⟨⟨_, rfl⟩, hcount⟩, hcount, Or.inr ⟨i, rfl⟩⟩
      | ifaceEnd g child => exact ⟨⟨⟨_, rfl⟩, hcount⟩, hcount, Or.inl rfl⟩
      | lastNeighbour _ _ _ _ below | nextNeighbour _ _ _ _ below =>
        rcases below with rfl | rfl <;> simp at hj
      | _ => simp at hj) h ⟨⟨iface, hd⟩, rfl⟩
  obtain ⟨i, hi⟩ := hiface.resolve_left hne
  exact ⟨i, by rw [← hchild, hi], by rw [← hg, hcount]⟩

/-- **Among the fields the two descents stay together**, whatever `_num_neighbours` is. -/
theorem fold_fields {comps : List (List Char)} (hcomps : ∀ comp ∈ comps, nul ∉ comp)
    {fuel : Nat} {d₁ d₂ : Descent} (h : Together db f n d₁ d₂) {i : Nat}
    (hnode : d₁.node = .netif (some i) .iface ∨ d₁.node = .netif (some i) .field)
    (hpast : ¬ PastFields (d₁.node.fieldsAhead d₁.g) comps) :
    SameOutcome db f n (comps.foldlM (descend db fuel) d₁) (comps.foldlM (descend db fuel) d₂) := by
  induction comps generalizing d₁ d₂ with
  | nil => exact .found h
  | cons comp comps ih =>
    obtain ⟨hcomp, hcomps⟩ := List.forall_mem_cons.mp hcomps
    have hnetif : d₁.node.IsNetif := by
      rcases hnode with hnode | hnode <;> (rw [hnode]; trivial)
    have hcount := (h.agree.counters hnetif).1
    have hahead : d₂.node.fieldsAhead d₂.g = d₁.node.fieldsAhead d₁.g := by
      rw [← h.node]
      rcases hnode with hnode | hnode <;> rw [hnode, DbNode.fieldsAhead, DbNode.fieldsAhead, hcount]
    obtain ⟨skipped, field, ahead, hsplit, hskipped, hfield, hpast⟩ := exists_field_of_not_past hpast
    obtain ⟨k₁, hk₁, hd₁⟩ := descend_fields hcomp hnode hsplit hskipped hfield fuel
    obtain ⟨k₂, hk₂, hd₂⟩ := descend_fields hcomp (h.node ▸ hnode)
      (hahead.trans hsplit) hskipped hfield fuel
    obtain rfl := position_of_drop hk₁ hk₂
    rw [List.foldlM_cons, List.foldlM_cons, hd₁, hd₂, h.nameBuf]
    split_ifs with hfuel
    · have hagree : Agree f n True { d₁.g with netifFieldCount := k₁ }
          { d₂.g with netifFieldCount := k₁ } :=
        ⟨h.agree.neighbours, h.agree.saul, h.agree.field, h.agree.num,
          fun _ => ⟨rfl, (h.agree.counters hnetif).2⟩⟩
      refine ih hcomps ⟨rfl, rfl, hagree, ?_⟩ (Or.inr rfl) ?_
      · exact report_netif_field (some i) rfl (field_of_drop hk₁).1
      · show ¬ PastFields (netifFieldNames.drop (k₁.toNat + 1)) comps
        rw [← List.drop_drop, hk₁]
        exact hpast
    · exact .trap .fuel

/-! ## Whole paths -/

/-- Where `_num_neighbours` agrees, only `_field_count` is left to look at. -/
theorem fold_together {comps : List (List Char)} (hcomps : ∀ comp ∈ comps, nul ∉ comp)
    {fuel : Nat} {d₁ d₂ : Descent} (h : Together db f n d₁ d₂) (hp : Place db d₁.node)
    (hf : Below db .ps comps d₁.node → f) (hn : n) :
    SameOutcome db f n (comps.foldlM (descend db fuel) d₁) (comps.foldlM (descend db fuel) d₂) := by
  induction comps generalizing d₁ d₂ with
  | nil => exact .found h
  | cons comp comps ih =>
    obtain ⟨hcomp, hcomps⟩ := List.forall_mem_cons.mp hcomps
    rw [List.foldlM_cons, List.foldlM_cons]
    have hstep : SameOutcome db f n (descend db fuel d₁ comp) (descend db fuel d₂ comp) :=
      descend_together h (searchOk_of_below hf fun _ => hn)
    cases hd : descend db fuel d₁ comp with
    | error stop =>
      rw [hd] at hstep
      generalize descend db fuel d₂ comp = r₂ at hstep ⊢
      cases hstep with
      | notFound g₁ g₂ n₁ n₂ => exact .notFound _ _ _ _
      | trap t => exact .trap t
    | ok d₁' =>
      rw [hd] at hstep
      generalize descend db fuel d₂ comp = r₂ at hstep ⊢
      cases hstep with
      | found h' =>
        exact ih hcomps h' (place_of_descend hd hcomp hp)
          (fun hb => hf (below_of_descend hd hcomp hp hb))

/-- **Two descents along a path end in the same way.** -/
theorem fold_sameOutcome {comps : List (List Char)} (hcomps : ∀ comp ∈ comps, nul ∉ comp)
    {fuel : Nat} {d₁ d₂ : Descent} (h : Together db f n d₁ d₂) (hp : Place db d₁.node)
    (hlist : ListStart d₁) (hf : Below db .ps comps d₁.node → f)
    (hn : PastInterface db comps d₁.node → n) :
    SameOutcome db f n (comps.foldlM (descend db fuel) d₁) (comps.foldlM (descend db fuel) d₂) := by
  by_cases hnum : n
  · exact fold_together hcomps h hp hf hnum
  induction comps generalizing d₁ d₂ with
  | nil => exact .found h
  | cons comp comps ih =>
    obtain ⟨hcomp, hcomps⟩ := List.forall_mem_cons.mp hcomps
    have hsearch : SearchOk f n d₁.node := by
      by_cases hfile : d₁.node.file = .netif
      · obtain ⟨⟨iface, hroot⟩, -⟩ := hlist hfile
        rw [hroot]
        trivial
      · exact searchOk_of_file hfile hf
    have hstep : SameOutcome db f n (descend db fuel d₁ comp) (descend db fuel d₂ comp) :=
      descend_together h hsearch
    rw [List.foldlM_cons, List.foldlM_cons]
    cases hd : descend db fuel d₁ comp with
    | error stop =>
      rw [hd] at hstep
      generalize descend db fuel d₂ comp = r₂ at hstep ⊢
      cases hstep with
      | notFound g₁ g₂ n₁ n₂ => exact .notFound _ _ _ _
      | trap t => exact .trap t
    | ok d₁' =>
      rw [hd] at hstep
      generalize descend db fuel d₂ comp = r₂ at hstep ⊢
      cases hstep with
      | found h' =>
        by_cases hfile : d₁.node.file = .netif
        · obtain ⟨⟨iface, hroot⟩, hzero⟩ := hlist hfile
          obtain ⟨i, hi, hcount⟩ := iface_of_descend hd hroot
          refine fold_fields hcomps h' (Or.inl hi) ?_
          rw [hi, DbNode.fieldsAhead, hcount, hzero]
          intro hpast
          exact hnum (hn (by rw [PastInterface, if_pos hfile]; exact hpast))
        · exact ih hcomps h' (place_of_descend hd hcomp hp) (listStart_of_descend hd hfile)
            (fun hb => hf (below_of_descend hd hcomp hp hb))
            (fun hb => hn (past_of_descend hd hcomp hp hfile hb))

variable (db) in
/-- Two lookups with the same code and, if they find a node, the same report. -/
def SameLookup : Res Found → Res Found → Prop :=
  Both fun a b => a.code = b.code ∧ (a.code = 0 → report db a.g a.node = report db b.g b.node)

theorem find_sameLookup {path : CString} (h : Agree f n False g₁ g₂)
    (hf : Below db .ps (pathComponents path) dbGetRoot → f)
    (hn : PastInterface db (pathComponents path) dbGetRoot → n) (fuel : Nat) (c₁ c₂ : DbNode)
    (b₁ b₂ : NameBuf) :
    SameLookup db (dbFindNodeByPath db fuel g₁ path c₁ b₁)
      (dbFindNodeByPath db fuel g₂ path c₂ b₂) := by
  have hstart : Together db f n (.start g₁) (.start g₂) :=
    ⟨rfl, rfl, h.mono (by simp [Descent.start, dbGetRoot, DbNode.IsNetif]), rfl⟩
  have hfold : SameOutcome db f n ((pathComponents path).foldlM (descend db fuel) (.start g₁))
      ((pathComponents path).foldlM (descend db fuel) (.start g₂)) :=
    fold_sameOutcome (fun _ h => nul_not_mem_component h) hstart (Or.inl ⟨.root 0, rfl⟩)
      (fun hfile => by cases hfile) hf hn
  rw [dbFindNodeByPath_eq_fold, dbFindNodeByPath_eq_fold]
  generalize (pathComponents path).foldlM (descend db fuel) (.start g₁) = r₁ at hfold ⊢
  generalize (pathComponents path).foldlM (descend db fuel) (.start g₂) = r₂ at hfold ⊢
  cases hfold with
  | notFound g₁ g₂ n₁ n₂ => exact .ok ⟨rfl, fun hcode => by simp [enoent] at hcode⟩
  | trap t => exact .error t
  | found hd =>
    refine .ok ⟨rfl, fun _ => ?_⟩
    rw [hd.report, hd.node]

/-! ## Histories -/

/-- `_saul_field_count` never leaves its initial value: a device has one field. -/
theorem kept_saulFieldCount : Kept db (fun g => g.saulFieldCount = 0) where
  child := by
    intro c c' h hg
    cases h with
    | dynamic g child flIdx subIdx fn => cases fn <;> exact hg
    | saulField g child dev more => exact absurd hg more
    | saulEnd g child dev => rfl
    | _ => exact hg
  count := by
    intro g ips hg
    obtain ⟨-, -, -, hsaul⟩ := foldl_countNeighbour_frame ips { g with numNeighbours := 0 }
    rw [hsaul]
    exact hg

variable (db) in
/-- The lookup of every path says the same after all histories that leave the same neighbours. -/
def HistoryIndependent (neighbours : List NeighborEntryl) : Prop :=
  ∀ (ops₁ ops₂ : List DbOp) (s₁ s₂ : Session), History db (.boot neighbours) ops₁ s₁ →
    History db (.boot neighbours) ops₂ s₂ → s₁.g.neighbours = s₂.g.neighbours →
    ∀ (path : CString) (fuel : Nat) (c₁ c₂ : DbNode) (b₁ b₂ : NameBuf),
      SameLookup db (dbFindNodeByPath db fuel s₁.g path c₁ b₁)
        (dbFindNodeByPath db fuel s₂.g path c₂ b₂)

theorem SameLookup.code {r₁ r₂ : Res Found} (h : SameLookup db r₁ r₂) :
    Found.code <$> r₁ = Found.code <$> r₂ := by
  cases h with
  | ok h => exact congrArg Except.ok h.1
  | error t => rfl

/-- `/runtime/ps/idle/pid` is not found after `/runtime/ps/idle/state` has been. -/
theorem not_historyIndependent : ¬ HistoryIndependent smallDb [] := by
  intro h
  have hfind : History smallDb (.boot []) [.find (.lit "/runtime/ps/idle/state")]
      ⟨{ fieldCount := 1 }, [.ps 1 .field]⟩ :=
    .cons ⟨.null, Buf.zero _, Buf.zero _⟩ 8 (by decide) (.nil _)
  have hcode := (h [] _ _ _ (.nil _) hfind rfl (.lit "/runtime/ps/idle/pid") 8 .null .null
    (Buf.zero _) (Buf.zero _)).code
  exact absurd hcode (by decide)

/-- A path to a measurement on the small board. -/
def latencyPath : CString := .lit "/network/netif/6/neighbours/fe80::1/latency"

/-- After `num_neighbours` of the small board has been read. -/
def countedSmall : Globals where
  netifFieldCount := 3
  numNeighbours := 1
  neighbours := [⟨linkLocal 1, 0, 0, 0⟩]

theorem countedSmall_history :
    History smallDb (.boot []) [.find (.lit "/network/netif/6/num_neighbours"), .value 0 8]
      ⟨countedSmall, [.netif (some 0) .field]⟩ := by
  have hfind : DbOp.exec smallDb ⟨.null, Buf.zero _, Buf.zero _⟩ 8 (.boot [])
      (.find (.lit "/network/netif/6/num_neighbours"))
      = .ok ⟨{ netifFieldCount := 3 }, [.netif (some 0) .field]⟩ := by decide
  have hvalue : DbOp.exec smallDb ⟨.null, Buf.zero _, Buf.zero _⟩ 8
      ⟨{ netifFieldCount := 3 }, [.netif (some 0) .field]⟩ (.value 0 8)
      = .ok ⟨countedSmall, [.netif (some 0) .field]⟩ := by decide
  exact .cons _ 8 hfind (.cons _ 8 hvalue (.nil _))

/--
**Two lookups of a path say the same after two histories in which the counters agree that the
path depends on**: `_field_count` if it goes below a process, `_num_neighbours` if it goes past the
fields of an interface. No other variable carries the history into a lookup.
-/
theorem lookup_after_history (db : Db) (neighbours : List NeighborEntryl) (ops₁ ops₂ : List DbOp)
    (s₁ s₂ : Session) (h₁ : History db (.boot neighbours) ops₁ s₁)
    (h₂ : History db (.boot neighbours) ops₂ s₂) (hnb : s₁.g.neighbours = s₂.g.neighbours)
    (path : CString)
    (hps : Below db .ps (pathComponents path) dbGetRoot → s₁.g.fieldCount = s₂.g.fieldCount)
    (hnetif : PastInterface db (pathComponents path) dbGetRoot →
      s₁.g.numNeighbours = s₂.g.numNeighbours)
    (fuel : Nat) (c₁ c₂ : DbNode) (b₁ b₂ : NameBuf) :
    SameLookup db (dbFindNodeByPath db fuel s₁.g path c₁ b₁)
      (dbFindNodeByPath db fuel s₂.g path c₂ b₂) := by
  have hsaul₁ := kept_saulFieldCount.history h₁ rfl
  have hsaul₂ := kept_saulFieldCount.history h₂ rfl
  have hagree : Agree (s₁.g.fieldCount = s₂.g.fieldCount) (s₁.g.numNeighbours = s₂.g.numNeighbours)
      False s₁.g s₂.g :=
    ⟨hnb, hsaul₁.trans hsaul₂.symm, id, id, False.elim⟩
  exact find_sameLookup hagree hps hnetif fuel c₁ c₂ b₁ b₂

/-- `_field_count` differs, and the path does not go below a process. -/
theorem lookup_after_history_latency :
    SameLookup smallDb
      (dbFindNodeByPath smallDb 8 countedSmall latencyPath .null (Buf.zero _))
      (dbFindNodeByPath smallDb 8 { countedSmall with fieldCount := 1 } latencyPath .null
        (Buf.zero _)) := by
  have hstate : History smallDb ⟨countedSmall, [.netif (some 0) .field]⟩
      [.find (.lit "/runtime/ps/idle/state")]
      ⟨{ countedSmall with fieldCount := 1 }, [.netif (some 0) .field, .ps 1 .field]⟩ :=
    .cons ⟨.null, Buf.zero _, Buf.zero _⟩ 8 (by decide) (.nil _)
  exact lookup_after_history smallDb [] _ _ _ _ countedSmall_history (countedSmall_history.append hstate) rfl
    latencyPath (fun h => absurd h (by decide)) (fun _ => rfl) 8 .null .null _ _

end Dca
