import Dca.Db.Calls
import Dca.Db.Held
import Dca.Db.Lookup
import Dca.Db.Names
import Dca.Db.Next

/-!
# What a call of `get_next_child` says about children

Some branches advance a counter and leave the output variable as it was. `KeepsChild` says where,
and everywhere else the result does not depend on the old content of the variable. For a leaf this
is the same question as whether it has children: a leaf of `ps.c` or `netif.c` goes on with its
siblings, which it counts without writing them, until the last one yields the null node.
-/

namespace Dca

open CLib

variable (db : Db)

/-! ## The output variable -/

/-- The call leaves the same child whatever the output variable held before. -/
def Determined (g : Globals) (node : DbNode) : Prop :=
  ∀ out out' : DbNode, (·.child) <$> dbNodeGetNextChild db ⟨g, node, out⟩
    = (·.child) <$> dbNodeGetNextChild db ⟨g, node, out'⟩

/-- The branches of `get_next_child` that do not write the output variable. -/
def KeepsChild (env : Env) (g : Globals) : DbNode → Prop
  | .ps pid .process => ¬ (pid ≤ env.kernelPidLast ∧ g.fieldCount < psCount)
  | .ps _ .field => g.fieldCount ≠ psCount - 1
  | .saul dev .device => dev = none ∨ ¬ g.saulFieldCount < saulCount
  | .saul _ .field => g.saulFieldCount ≠ saulCount - 1
  | .netif iface .iface => ¬ (iface ≠ none ∧ g.netifFieldCount < netifCount)
  | .netif _ .field => g.netifFieldCount < netifCount - 1
  | .netif _ .qos => g.netifSubFieldCount < qosCount
  | _ => False

instance (env : Env) (g : Globals) (node : DbNode) : Decidable (KeepsChild env g node) := by
  unfold KeepsChild
  split <;> infer_instance

variable {db}

/-- **A branch that keeps the child returns it.** -/
theorem next_of_keepsChild {g : Globals} {node : DbNode} (h : KeepsChild db.env g node)
    (out : DbNode) : ∃ g' node', dbNodeGetNextChild db ⟨g, node, out⟩ = .ok ⟨g', node', out⟩ := by
  cases node with
  | null | root _ | fl _ _ _ => exact h.elim
  | ps pid level =>
    cases level with
    | root => exact h.elim
    | process =>
      refine ⟨g, .ps pid .process, ?_⟩
      simp only [dbNodeGetNextChild, psNodeGetnextChild, if_neg h, pure_eq_ok]
    | field =>
      have hmore : g.fieldCount ≠ psCount - 1 := h
      exact ⟨_, _, next_psField out hmore⟩
  | saul dev level =>
    cases level with
    | root => exact h.elim
    | device =>
      cases dev with
      | none => exact ⟨g, _, rfl⟩
      | some i =>
        have hcount : ¬ g.saulFieldCount < saulCount := h.resolve_left (by simp)
        refine ⟨g, .saul (some i) .device, ?_⟩
        simp only [dbNodeGetNextChild, saulNodeGetnextChild, if_neg hcount, pure_eq_ok]
    | field =>
      have hmore : g.saulFieldCount ≠ saulCount - 1 := h
      refine ⟨{ g with saulFieldCount := g.saulFieldCount + 1 }, .saul dev .field, ?_⟩
      simp only [dbNodeGetNextChild, saulNodeGetnextChild, if_neg hmore, pure_eq_ok]
  | netif iface level =>
    cases level with
    | root | neighbour => exact h.elim
    | iface =>
      refine ⟨g, .netif iface .iface, ?_⟩
      simp only [dbNodeGetNextChild, netifNodeGetnextChild, netifGetnextChildDepth,
        netifGetnextChildBody, if_neg h]
    | field =>
      have hlt : g.netifFieldCount < netifCount - 1 := h
      exact ⟨_, _, next_netifField out hlt⟩
    | qos =>
      have hlt : g.netifSubFieldCount < qosCount := h
      exact ⟨_, _, next_qos out hlt⟩

/-- **Every other branch does the same whatever the output variable holds.** -/
theorem next_of_not_keepsChild {g : Globals} {node : DbNode} (h : ¬ KeepsChild db.env g node)
    (out out' : DbNode) :
    dbNodeGetNextChild db ⟨g, node, out⟩ = dbNodeGetNextChild db ⟨g, node, out'⟩ := by
  cases node with
  | null => rfl
  | root idx =>
    simp only [dbNodeGetNextChild, rootGetNextChild]
  | fl flIdx subIdx isRoot =>
    simp only [dbNodeGetNextChild, flNodeGetnextChild]
  | ps pid level =>
    cases level with
    | root => rfl
    | process =>
      have hmore := not_not.mp h
      simp only [dbNodeGetNextChild, psNodeGetnextChild, if_pos hmore]
    | field =>
      have hlast : g.fieldCount = psCount - 1 := not_not.mp h
      rw [next_psField_end out hlast, next_psField_end out' hlast]
  | saul dev level =>
    cases level with
    | root => rfl
    | device =>
      obtain ⟨hdev, hcount⟩ := not_or.mp h
      obtain ⟨i, rfl⟩ := Option.ne_none_iff_exists'.mp hdev
      have hmore := not_not.mp hcount
      simp only [dbNodeGetNextChild, saulNodeGetnextChild, if_pos hmore]
    | field =>
      have hlast : g.saulFieldCount = saulCount - 1 := not_not.mp h
      simp only [dbNodeGetNextChild, saulNodeGetnextChild, if_pos hlast]
  | netif iface level =>
    cases level with
    | root =>
      cases iface <;> rfl
    | iface =>
      obtain ⟨hiface, hmore⟩ := not_not.mp h
      obtain ⟨i, rfl⟩ := Option.ne_none_iff_exists'.mp hiface
      rw [next_iface out hmore, next_iface out' hmore]
    | field =>
      have hlast : ¬ g.netifFieldCount < netifCount - 1 := h
      simp only [dbNodeGetNextChild, netifNodeGetnextChild, netifGetnextChildDepth,
        netifGetnextChildBody, if_neg hlast]
    | neighbour =>
      by_cases hzero : g.numNeighbours = 0
      · rw [next_neighbour_end out hzero, next_neighbour_end out' hzero]
      by_cases hsub : g.netifSubFieldCount = 1
      · rw [next_neighbour_first out hzero hsub, next_neighbour_first out' hzero hsub]
      by_cases hmore : g.netifSubFieldCount < qosCount
      · rw [next_neighbour_qos out hzero hsub hmore, next_neighbour_qos out' hzero hsub hmore]
      · rw [next_neighbour_next out hzero hmore, next_neighbour_next out' hzero hmore]
    | qos =>
      have hlast : ¬ g.netifSubFieldCount < qosCount := h
      by_cases hend : g.netifSubFieldCount = qosCount ∧ g.numNeighbours ≠ 0
      · rw [next_qos_end out hend.1 hend.2, next_qos_end out' hend.1 hend.2]
      · rw [next_qos_next out hlast hend, next_qos_next out' hlast hend]

variable (db) in
/-- Each call on a held node of a session determines its child. -/
def EnumerationDetermined (neighbours : List NeighborEntryl) : Prop :=
  ∀ (ops : List DbOp) (s : Session), History db (.boot neighbours) ops s →
    ∀ node ∈ s.held, Determined db s.g node

/-- The second child of the process `idle` is whatever the caller's variable holds. -/
theorem not_enumerationDetermined : ¬ EnumerationDetermined smallDb [] := by
  intro h
  have htake : History smallDb ⟨{}, [.ps 1 .process]⟩ [.nextChild 0 .null]
      ⟨{}, [.ps 2 .field, .ps 1 .field]⟩ :=
    .cons ⟨.null, Buf.zero _, Buf.zero _⟩ 8 (by decide) (.nil _)
  have hops : History smallDb (.boot []) [.find (.lit "/runtime/ps/idle"), .nextChild 0 .null]
      ⟨{}, [.ps 2 .field, .ps 1 .field]⟩ :=
    .cons ⟨.null, Buf.zero _, Buf.zero _⟩ 8 (by decide) htake
  exact absurd (h _ _ hops (.ps 2 .field) (by simp) .null (.root 0)) (by decide)

/--
**The child is determined exactly where the branch writes it**, for every node and in every state
of the shared variables.
-/
theorem determined_iff (db : Db) (g : Globals) (node : DbNode) :
    Determined db g node ↔ ¬ KeepsChild db.env g node := by
  constructor
  · intro hd hk
    obtain ⟨g₁, node₁, h₁⟩ := next_of_keepsChild hk .null
    obtain ⟨g₂, node₂, h₂⟩ := next_of_keepsChild hk dbGetRoot
    have h := hd .null dbGetRoot
    rw [h₁, h₂] at h
    exact absurd h (by simp [dbGetRoot])
  · intro hk out out'
    rw [next_of_not_keepsChild hk out out']

/-! ## Leaves -/

/-- The nodes of `netif.c` that stand for a place in the neighbour list. -/
def DbNode.IsNumbered : DbNode → Prop
  | .netif _ .neighbour | .netif _ .qos => True
  | _ => False

/-- A child that stands for a place in the neighbour list comes with its number. -/
def Numbered (c : Cursor) : Prop := c.child.IsNumbered → c.g.numNeighbours ≠ 0

theorem Numbered.netif {g : Globals} {iface : Option Nat} {level : NetifLevel} {child : DbNode}
    {c' : Cursor} (hc : Numbered ⟨g, .netif iface level, child⟩)
    (h : netifNodeGetnextChild db.env ⟨g, .netif iface level, child⟩ = .ok c') : Numbered c' := by
  rw [netifNodeGetnextChild, netifGetnextChildDepth] at h
  have hagain : ∀ {level : NetifLevel}, netifNextNeighbour (netifGetnextChildDepth db.env 1)
      ⟨g, .netif iface level, child⟩ iface = .ok c' → Numbered c' := by
    intro level h
    dsimp only [netifNextNeighbour] at h
    split_ifs at h with hzero
    · obtain rfl := Except.ok.inj h
      exact fun hnum => hnum.elim
    · have hpos : ¬ g.numNeighbours - 1 ≤ 0 := fun hle => hzero (UInt8.le_zero_iff.mp hle)
      simp only [netifGetnextChildDepth, netifGetnextChildBody, if_neg hpos, if_true] at h
      obtain rfl := Except.ok.inj h
      exact fun _ => hzero
  cases level with
  | root =>
    cases iface with
    | none | some i =>
      obtain rfl := Except.ok.inj h
      exact fun hnum => hnum.elim
  | iface =>
    simp only [netifGetnextChildBody] at h
    split_ifs at h
    · obtain rfl := Except.ok.inj h
      exact fun hnum => hnum.elim
    · obtain rfl := Except.ok.inj h
      exact hc
  | field =>
    simp only [netifGetnextChildBody] at h
    split_ifs at h with hn
    · obtain rfl := Except.ok.inj h
      exact fun _ => UInt8.pos_iff_ne_zero.mp hn.2.2
    · obtain rfl := Except.ok.inj h
      exact hc
    · obtain rfl := Except.ok.inj h
      exact fun hnum => hnum.elim
  | neighbour =>
    simp only [netifGetnextChildBody] at h
    split_ifs at h with hn
    · obtain rfl := Except.ok.inj h
      exact fun hnum => hnum.elim
    · obtain rfl := Except.ok.inj h
      exact fun _ hzero => hn (UInt8.le_zero_iff.mpr hzero)
    · obtain rfl := Except.ok.inj h
      exact fun _ hzero => hn (UInt8.le_zero_iff.mpr hzero)
    · exact hagain h
  | qos =>
    simp only [netifGetnextChildBody] at h
    split_ifs at h
    · obtain rfl := Except.ok.inj h
      exact hc
    · obtain rfl := Except.ok.inj h
      exact fun hnum => hnum.elim
    · exact hagain h

theorem Numbered.next {c c' : Cursor} (hc : Numbered c) (h : dbNodeGetNextChild db c = .ok c') :
    Numbered c' := by
  cases childStep_of_ok h with
  | dynamic g child flIdx subIdx f => cases f <;> exact fun hnum => hnum.elim
  | psStay | psField | saulStay | saulField => exact hc
  | branch | rootEnd | static | branchEnd | process | processEnd | psLeaf | psEnd | device
  | deviceEnd | saulLeaf | saulEnd => exact fun hnum => hnum.elim
  | iface | ifaceEnd | netifLeaf | netifStay | netifField | netifFieldEnd | neighbours
  | noNeighbour | neighbour | qos | qosField | qosEnd | lastNeighbour | nextNeighbour =>
    exact hc.netif h

theorem outcome_true {α : Type} {Q : α → Prop} {x : Res α} (h : ∀ a, x = .ok a → Q a) :
    Outcome (fun _ => True) Q x := by
  cases x with
  | ok a => exact h a rfl
  | error t => exact trivial

theorem lookupRule_numbered : LookupRule db (fun _ => True) (fun _ => True) Numbered where
  next := fun hc => outcome_true fun _ h => hc.next h
  isNull := fun _ => outcome_true fun _ _ => trivial
  name := fun _ _ _ => outcome_true fun _ _ => trivial
  descend := fun hc _ => hc
  bounds := fun _ _ _ => trivial
  fuel := trivial

/-- **A neighbour or a measurement is found with its number.** -/
theorem numbered_of_find {fuel : Nat} {g : Globals} {path : CString} {child : DbNode}
    {nameBuf : NameBuf} {found : Found}
    (h : dbFindNodeByPath db fuel g path child nameBuf = .ok found) (hcode : found.code = 0)
    (hnum : found.node.IsNumbered) : found.g.numNeighbours ≠ 0 :=
  (lookupRule_numbered.find fuel (fun hroot => hroot.elim) (fun _ _ => trivial) child
    nameBuf).of_eq_ok h hcode hnum

/-- A type that has a value. -/
def DbNodeType.IsLeaf : DbNodeType → Prop
  | .int | .float | .str => True
  | .null | .inner => False

/--
What the counters say about a leaf that has been found: it is the last one of its siblings. A leaf
of another file has no siblings that it could go on with.
-/
def LastLeaf (g : Globals) : DbNode → Prop
  | .ps _ _ => g.fieldCount = psCount - 1
  | .netif _ level => level = .qos ∧ g.netifSubFieldCount = qosCount
  | _ => True

instance (g : Globals) (node : DbNode) : Decidable (LastLeaf g node) := by
  unfold LastLeaf
  split <;> infer_instance

variable (db) in
/-- The first child is the null node. -/
def Childless (g : Globals) (node : DbNode) : Prop :=
  ∀ out, ∃ c, dbNodeGetNextChild db ⟨g, node, out⟩ = .ok c ∧ c.child = .null

/-- What the lookup of a leaf leaves. -/
structure LeafFound (db : Db) (g : Globals) (node : DbNode) (type : DbNodeType) : Prop where
  type_eq : dbNodeGetType db g node = .ok type
  leaf : type.IsLeaf
  pos : NetifPos ⟨g, node, node⟩
  numbered : node.IsNumbered → g.numNeighbours ≠ 0
  saulFieldCount : g.saulFieldCount = 0

/-- Where the variable is kept, it need not hold the null node. -/
theorem not_childless_of_keepsChild {g : Globals} {node : DbNode}
    (hk : KeepsChild db.env g node) : ¬ Childless db g node := by
  intro hc
  obtain ⟨g', node', hnext⟩ := next_of_keepsChild hk dbGetRoot
  obtain ⟨c, hc, hnull⟩ := hc dbGetRoot
  obtain rfl := Except.ok.inj (hnext.symm.trans hc)
  cases hnull

theorem childless_static {g : Globals} {flIdx subIdx : UInt8} {type : DbNodeType}
    (htype : dbNodeGetType db g (.fl flIdx subIdx false) = .ok type) :
    Childless db g (.fl flIdx subIdx false) := by
  intro out
  obtain ⟨e, he, -⟩ := bind_eq_ok.mp htype
  refine ⟨⟨g, .fl flIdx subIdx false, .null⟩, ?_, rfl⟩
  simp only [dbNodeGetNextChild, flNodeGetnextChild, he, ok_bind, Bool.false_eq_true, if_false,
    pure_eq_ok]

/-- A measurement ends the children exactly if it is the last one. -/
theorem childless_qos_iff {g : Globals} {iface : Option Nat} (hpos : g.numNeighbours ≠ 0)
    (hrange : g.netifSubFieldCount = 2 ∨ g.netifSubFieldCount = 3 ∨ g.netifSubFieldCount = 4) :
    Childless db g (.netif iface .qos) ↔ g.netifSubFieldCount = qosCount := by
  constructor
  · intro hc
    by_contra hlast
    have hmore : g.netifSubFieldCount < qosCount := by
      rcases hrange with hs | hs | hs
      · rw [hs]
        decide
      · rw [hs]
        decide
      · exact absurd hs hlast
    have hkeeps : KeepsChild db.env g (.netif iface .qos) := hmore
    exact not_childless_of_keepsChild hkeeps hc
  · exact fun hlast out => ⟨_, next_qos_end out hlast hpos, rfl⟩

theorem LeafFound.childless_iff {g : Globals} {node : DbNode} {type : DbNodeType}
    (h : LeafFound db g node type) : Childless db g node ↔ LastLeaf g node := by
  obtain ⟨htype, hleaf, hpos, hnum, hsaul⟩ := h
  cases node with
  | null =>
    obtain rfl := Except.ok.inj htype
    exact hleaf.elim
  | root idx =>
    obtain rfl := Except.ok.inj htype
    exact hleaf.elim
  | fl flIdx subIdx isRoot =>
    cases isRoot with
    | true =>
      obtain rfl := Except.ok.inj htype
      exact hleaf.elim
    | false => exact ⟨fun _ => trivial, fun _ => childless_static htype⟩
  | ps pid level =>
    cases level with
    | root | process =>
      obtain rfl := Except.ok.inj htype
      exact hleaf.elim
    | field =>
      constructor
      · intro hc
        by_contra hlast
        have hkeeps : KeepsChild db.env g (.ps pid .field) := hlast
        exact not_childless_of_keepsChild hkeeps hc
      · exact fun hlast out => ⟨_, next_psField_end out hlast, rfl⟩
  | saul dev level =>
    cases level with
    | root | device =>
      obtain rfl := Except.ok.inj htype
      exact hleaf.elim
    | field =>
      exact ⟨fun _ => trivial, fun _ out => ⟨_, next_saulField out hsaul, rfl⟩⟩
  | netif iface level =>
    cases level with
    | root | iface =>
      obtain rfl := Except.ok.inj htype
      exact hleaf.elim
    | field =>
      -- the field `neighbours` is a folder, so there are fields behind this one
      have hmore : g.netifFieldCount < netifCount - 1 := by
        refine (lt_or_last hpos.2.1).resolve_right fun hlast => ?_
        have hlast : g.netifFieldCount = 4 := hlast
        obtain rfl := Except.ok.inj htype
        simp [netifNodeGettype, hlast, DbNodeType.IsLeaf] at hleaf
      constructor
      · have hkeeps : KeepsChild db.env g (.netif iface .field) := hmore
        exact fun hc => absurd hc (not_childless_of_keepsChild hkeeps)
      · rintro ⟨hlevel, -⟩
        cases hlevel
    | neighbour =>
      obtain rfl := Except.ok.inj htype
      rw [(netifNodeGettype_below (neighbours_ne hpos.1)).1] at hleaf
      exact hleaf.elim
    | qos =>
      obtain ⟨-, hnull | ⟨-, hrange⟩⟩ := hpos
      · cases hnull
      · rw [childless_qos_iff (hnum trivial) hrange]
        exact ⟨fun hlast => ⟨rfl, hlast⟩, fun hlast => hlast.2⟩

/-- A lookup that succeeds ends at a descent. -/
theorem descent_of_find {fuel : Nat} {g : Globals} {path : CString} {child : DbNode}
    {nameBuf : NameBuf} {found : Found}
    (h : dbFindNodeByPath db fuel g path child nameBuf = .ok found) (hcode : found.code = 0) :
    ∃ b, (pathComponents path).foldlM (descend db fuel) (.start g)
      = .ok ⟨found.g, found.node, b⟩ := by
  rw [dbFindNodeByPath_eq_fold] at h
  cases hf : (pathComponents path).foldlM (descend db fuel) (.start g) with
  | ok d =>
    rw [hf] at h
    obtain rfl := Except.ok.inj h
    exact ⟨d.nameBuf, rfl⟩
  | error stop =>
    rw [hf] at h
    cases stop with
    | trap t => simp [lookupResult] at h
    | notFound g' node =>
      obtain rfl := Except.ok.inj h
      simp [enoent] at hcode

/-- A node without children ends every descent into it. -/
theorem Childless.descend {g : Globals} {node : DbNode} (h : Childless db g node) (fuel : Nat)
    (b : NameBuf) (comp : List Char) :
    ∃ g' node', Dca.descend db (fuel + 1) ⟨g, node, b⟩ comp = .error (.notFound g' node') := by
  obtain ⟨c, hc, hnull⟩ := h node
  have hend : dbNodeIsNull db c.g c.child = .ok true := by
    rw [hnull]
    rfl
  refine ⟨c.g, c.node, ?_⟩
  simp [Dca.descend, searchChild, hc, hend, searchOutcome]

variable (db) in
/-- A leaf that the path leads to has no children, neither for an enumeration nor for a lookup. -/
structure LeafLaw (fuel : Nat) (g : Globals) (path : CString) (found : Found) : Prop where
  childless : Childless db found.g found.node
  below : ∀ (longer : CString) (comp : List Char),
    pathComponents longer = pathComponents path ++ [comp] → ∀ (child : DbNode) (nameBuf : NameBuf),
      ∃ found', dbFindNodeByPath db fuel g longer child nameBuf = .ok found' ∧
        found'.code = enoent

variable (db) in
/-- The law for every leaf that a lookup finds in a reachable state. -/
def LeavesChildless : Prop :=
  ∀ g, Reachable db.dbIndex g →
    ∀ (fuel : Nat) (path : CString) (child : DbNode) (nameBuf : NameBuf) (found : Found)
      (type : DbNodeType),
      dbFindNodeByPath db fuel g path child nameBuf = .ok found → found.code = 0 →
      dbNodeGetType db found.g found.node = .ok type → type.IsLeaf → LeafLaw db fuel g path found

/-- The first call on `/runtime/ps/idle/pid` yields what the caller's variable holds. -/
theorem not_leavesChildless : ¬ LeavesChildless smallDb := by
  intro h
  have hlaw := h {} ⟨smallEnv, .boot smallEnv, .refl _, rfl⟩ 8 (.lit "/runtime/ps/idle/pid") .null
    (Buf.zero _) ⟨{}, 0, .ps 1 .field⟩ .int (by decide) rfl rfl trivial
  obtain ⟨c, hc, hnull⟩ := hlaw.childless dbGetRoot
  obtain rfl := Except.ok.inj hc
  cases hnull

/--
**A leaf that a lookup finds has no children exactly when it is the last of its siblings**, which
matters for the fields of a process and for the measurements of a neighbour. The fields of an
interface always have siblings behind them, and leaves of other files never do.
-/
theorem leafLaw_iff (db : Db) (g : Globals) (hg : Reachable db.dbIndex g) (fuel : Nat)
    (path : CString) (child : DbNode) (nameBuf : NameBuf) (found : Found)
    (hfind : dbFindNodeByPath db fuel g path child nameBuf = .ok found) (hcode : found.code = 0)
    (type : DbNodeType) (htype : dbNodeGetType db found.g found.node = .ok type)
    (hleaf : type.IsLeaf) :
    LeafLaw db fuel g path found ↔ LastLeaf found.g found.node := by
  have hfound : LeafFound db found.g found.node type := {
    type_eq := htype
    leaf := hleaf
    pos := lookupInvariant_netifPos.find hfind hcode
    numbered := numbered_of_find hfind hcode
    saulFieldCount := kept_saulFieldCount.find hfind hg.inRange.saulFieldCount }
  constructor
  · intro hlaw
    exact hfound.childless_iff.mp hlaw.childless
  · intro hlast
    have hchildless := hfound.childless_iff.mpr hlast
    refine ⟨hchildless, ?_⟩
    intro longer comp hlonger child' nameBuf'
    obtain ⟨b, hfold⟩ := descent_of_find hfind hcode
    cases fuel with
    | zero =>
      -- without fuel a lookup gets no further than the root, which is not a leaf
      cases hcomps : pathComponents path with
      | nil =>
        rw [hcomps] at hfold
        obtain ⟨rfl, hnode, -⟩ : g = found.g ∧ dbGetRoot = found.node ∧ _ := by
          simpa [Descent.start] using hfold
        rw [← hnode] at htype
        obtain rfl := Except.ok.inj htype
        exact hleaf.elim
      | cons c comps =>
        rw [hcomps, List.foldlM_cons] at hfold
        cases hfold
    | succ fuel =>
      obtain ⟨g', node', hdescend⟩ := hchildless.descend fuel b comp
      refine ⟨⟨g', enoent, node'⟩, ?_, rfl⟩
      rw [dbFindNodeByPath_eq_fold, hlonger, List.foldlM_append, hfold, ok_bind, List.foldlM_cons,
        hdescend]
      rfl

/-- The last field of a process. -/
theorem leafLaw_stack_used :
    LeafLaw smallDb 8 {} (.lit "/runtime/ps/idle/stack used") ⟨{ fieldCount := 4 }, 0, .ps 1 .field⟩
      ↔ LastLeaf { fieldCount := 4 } (.ps 1 .field) :=
  leafLaw_iff smallDb {} ⟨smallEnv, .boot smallEnv, .refl _, rfl⟩ 8
    (.lit "/runtime/ps/idle/stack used") .null (Buf.zero _) ⟨{ fieldCount := 4 }, 0, .ps 1 .field⟩
    (by decide) rfl .int (by decide) trivial

end Dca
