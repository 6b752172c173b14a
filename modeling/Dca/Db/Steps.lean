import Dca.Db.Path
import Dca.Db.Session

/-!
# What an operation does to the shared variables

`ChildStep` says once what a call of `get_next_child` can do, branch by branch. Reading a value
changes the shared variables only for `num_neighbours`. Whatever these two keep is kept by every
lookup, every dump and every history (`Kept`), and what holds at the root of a lookup and is kept
from a node to its children holds at the node that is found (`LookupInvariant`).
-/

namespace Dca

open CLib

variable (db : Db)

/-! ## Taking a child -/

/-- The outcomes of `db_node_get_next_child`. -/
inductive ChildStep : Cursor → Cursor → Prop where
  | branch (g : Globals) (child : DbNode) (idx : UInt8) :
      ChildStep ⟨g, .root idx, child⟩ ⟨g, .root (idx + 1), .fl idx 0 true⟩
  | rootEnd (g : Globals) (child : DbNode) (idx : UInt8) :
      ChildStep ⟨g, .root idx, child⟩ ⟨g, .root idx, .null⟩
  | static (g : Globals) (child : DbNode) (flIdx subIdx : UInt8) :
      ChildStep ⟨g, .fl flIdx subIdx true, child⟩
        ⟨g, .fl flIdx (subIdx + 1) true, .fl flIdx subIdx false⟩
  | dynamic (g : Globals) (child : DbNode) (flIdx subIdx : UInt8) (f : GetNodeFn) :
      ChildStep ⟨g, .fl flIdx subIdx true, child⟩
        ⟨(f.call db.env g).1, .fl flIdx (subIdx + 1) true, (f.call db.env g).2⟩
  | branchEnd (g : Globals) (child : DbNode) (flIdx subIdx : UInt8) (isRoot : Bool) :
      ChildStep ⟨g, .fl flIdx subIdx isRoot, child⟩ ⟨g, .fl flIdx subIdx isRoot, .null⟩
  | process (g : Globals) (child : DbNode) (pid next : Nat) :
      ChildStep ⟨g, .ps pid .root, child⟩ ⟨g, .ps next .root, .ps pid .process⟩
  | processEnd (g : Globals) (child : DbNode) (pid : Nat) :
      ChildStep ⟨g, .ps pid .root, child⟩ ⟨g, .ps pid .root, .null⟩
  | psLeaf (g : Globals) (child : DbNode) (pid next : Nat) :
      ChildStep ⟨g, .ps pid .process, child⟩ ⟨g, .ps next .field, .ps pid .field⟩
  | psStay (g : Globals) (child : DbNode) (pid : Nat) :
      ChildStep ⟨g, .ps pid .process, child⟩ ⟨g, .ps pid .process, child⟩
  | psField (g : Globals) (child : DbNode) (pid : Nat) (more : g.fieldCount ≠ psCount - 1) :
      ChildStep ⟨g, .ps pid .field, child⟩
        ⟨{ g with fieldCount := g.fieldCount + 1 }, .ps pid .field, child⟩
  | psEnd (g : Globals) (child : DbNode) (pid : Nat) :
      ChildStep ⟨g, .ps pid .field, child⟩ ⟨{ g with fieldCount := 0 }, .ps pid .field, .null⟩
  | device (g : Globals) (child : DbNode) (i : Nat) :
      ChildStep ⟨g, .saul (some i) .root, child⟩
        ⟨g, .saul (db.env.saulNext i) .root, .saul (some i) .device⟩
  | deviceEnd (g : Globals) (child : DbNode) :
      ChildStep ⟨g, .saul none .root, child⟩ ⟨g, .saul none .root, .null⟩
  | saulLeaf (g : Globals) (child : DbNode) (i : Nat) :
      ChildStep ⟨g, .saul (some i) .device, child⟩
        ⟨g, .saul (db.env.saulNext i) .field, .saul (some i) .field⟩
  | saulStay (g : Globals) (child : DbNode) (dev : Option Nat) :
      ChildStep ⟨g, .saul dev .device, child⟩ ⟨g, .saul dev .device, child⟩
  | saulField (g : Globals) (child : DbNode) (dev : Option Nat)
      (more : g.saulFieldCount ≠ saulCount - 1) :
      ChildStep ⟨g, .saul dev .field, child⟩
        ⟨{ g with saulFieldCount := g.saulFieldCount + 1 }, .saul dev .field, child⟩
  | saulEnd (g : Globals) (child : DbNode) (dev : Option Nat) :
      ChildStep ⟨g, .saul dev .field, child⟩
        ⟨{ g with saulFieldCount := 0 }, .saul dev .field, .null⟩
  | iface (g : Globals) (child : DbNode) (i : Nat) :
      ChildStep ⟨g, .netif (some i) .root, child⟩
        ⟨g, .netif (db.env.netifIter (some i)) .root, .netif (some i) .iface⟩
  | ifaceEnd (g : Globals) (child : DbNode) :
      ChildStep ⟨g, .netif none .root, child⟩ ⟨g, .netif none .root, .null⟩
  | netifLeaf (g : Globals) (child : DbNode) (iface : Option Nat) :
      ChildStep ⟨g, .netif iface .iface, child⟩
        ⟨g, .netif (db.env.netifIter iface) .field, .netif iface .field⟩
  | netifStay (g : Globals) (child : DbNode) (iface : Option Nat) :
      ChildStep ⟨g, .netif iface .iface, child⟩ ⟨g, .netif iface .iface, child⟩
  | netifField (g : Globals) (child : DbNode) (iface : Option Nat)
      (more : g.netifFieldCount < netifCount - 1) :
      ChildStep ⟨g, .netif iface .field, child⟩
        ⟨{ g with netifFieldCount := g.netifFieldCount + 1 }, .netif iface .field, child⟩
  | netifFieldEnd (g : Globals) (child : DbNode) (iface : Option Nat) :
      ChildStep ⟨g, .netif iface .field, child⟩ ⟨g, .netif iface .field, .null⟩
  | neighbours (g : Globals) (child : DbNode) (iface : Option Nat)
      (last : g.netifFieldCount = netifCount - 1) :
      ChildStep ⟨g, .netif iface .field, child⟩
        ⟨{ g with netifSubFieldCount := g.netifSubFieldCount + 1 }, .netif iface .neighbour,
          .netif iface .neighbour⟩
  | noNeighbour (g : Globals) (child : DbNode) (iface : Option Nat) :
      ChildStep ⟨g, .netif iface .neighbour, child⟩
        ⟨{ g with netifSubFieldCount := 1 }, .netif iface .neighbour, .null⟩
  | neighbour (g : Globals) (child : DbNode) (iface : Option Nat)
      (first : g.netifSubFieldCount = 1) :
      ChildStep ⟨g, .netif iface .neighbour, child⟩
        ⟨{ g with netifSubFieldCount := g.netifSubFieldCount + 1 }, .netif iface .neighbour,
          .netif iface .neighbour⟩
  | qos (g : Globals) (child : DbNode) (iface : Option Nat) (started : g.netifSubFieldCount ≠ 1)
      (more : g.netifSubFieldCount < qosCount) :
      ChildStep ⟨g, .netif iface .neighbour, child⟩ ⟨g, .netif iface .qos, .netif iface .qos⟩
  | qosField (g : Globals) (child : DbNode) (iface : Option Nat)
      (more : g.netifSubFieldCount < qosCount) :
      ChildStep ⟨g, .netif iface .qos, child⟩
        ⟨{ g with netifSubFieldCount := g.netifSubFieldCount + 1 }, .netif iface .qos, child⟩
  | qosEnd (g : Globals) (child : DbNode) (iface : Option Nat)
      (last : g.netifSubFieldCount = qosCount) :
      ChildStep ⟨g, .netif iface .qos, child⟩
        ⟨{ g with netifSubFieldCount := g.netifSubFieldCount + 1 }, .netif iface .qos, .null⟩
  | lastNeighbour (g : Globals) (child : DbNode) (iface : Option Nat) (level : NetifLevel)
      (below : level = .neighbour ∨ level = .qos) :
      ChildStep ⟨g, .netif iface level, child⟩
        ⟨{ g with numNeighbours := g.numNeighbours - 1, netifSubFieldCount := 1 },
          .netif iface level, .null⟩
  | nextNeighbour (g : Globals) (child : DbNode) (iface : Option Nat) (level : NetifLevel)
      (below : level = .neighbour ∨ level = .qos) :
      ChildStep ⟨g, .netif iface level, child⟩
        ⟨{ g with numNeighbours := g.numNeighbours - 1, netifSubFieldCount := 2 },
          .netif iface .neighbour, .netif iface .neighbour⟩

variable {db}

theorem fl_childStep {g : Globals} {child : DbNode} {flIdx subIdx : UInt8} {isRoot : Bool}
    {c' : Cursor}
    (h : flNodeGetnextChild db ⟨g, .fl flIdx subIdx isRoot, child⟩ flIdx subIdx isRoot = .ok c') :
    ChildStep db ⟨g, .fl flIdx subIdx isRoot, child⟩ c' := by
  unfold flNodeGetnextChild at h
  obtain ⟨e, -, h⟩ := bind_eq_ok.mp h
  split_ifs at h with hr hs
  · obtain rfl := Except.ok.inj h
    subst hr
    exact .static g child flIdx subIdx
  · subst hr
    dsimp only at h
    split at h
    · obtain rfl := Except.ok.inj h
      exact .dynamic g child flIdx subIdx _
    · obtain rfl := Except.ok.inj h
      exact .branchEnd g child flIdx subIdx true
  · obtain rfl := Except.ok.inj h
    exact .branchEnd g child flIdx subIdx isRoot

theorem ps_childStep {g : Globals} {child : DbNode} {pid : Nat} {level : PsLevel} {c' : Cursor}
    (h : psNodeGetnextChild db.env ⟨g, .ps pid level, child⟩ pid level = .ok c') :
    ChildStep db ⟨g, .ps pid level, child⟩ c' := by
  cases level with
  | root =>
    simp only [psNodeGetnextChild] at h
    split_ifs at h
    · obtain ⟨next, -, h⟩ := bind_eq_ok.mp h
      obtain rfl := Except.ok.inj h
      exact .process g child pid next
    · obtain rfl := Except.ok.inj h
      exact .processEnd g child pid
  | process =>
    simp only [psNodeGetnextChild] at h
    split_ifs at h
    · obtain ⟨next, -, h⟩ := bind_eq_ok.mp h
      obtain rfl := Except.ok.inj h
      exact .psLeaf g child pid next
    · obtain rfl := Except.ok.inj h
      exact .psStay g child pid
  | field =>
    simp only [psNodeGetnextChild] at h
    split_ifs at h with hlast
    · obtain rfl := Except.ok.inj h
      exact .psEnd g child pid
    · obtain rfl := Except.ok.inj h
      exact .psField g child pid hlast

theorem saul_childStep {g : Globals} {child : DbNode} {dev : Option Nat} {level : SaulLevel}
    {c' : Cursor}
    (h : saulNodeGetnextChild db.env ⟨g, .saul dev level, child⟩ dev level = .ok c') :
    ChildStep db ⟨g, .saul dev level, child⟩ c' := by
  cases level with
  | root =>
    cases dev with
    | none =>
      obtain rfl := Except.ok.inj h
      exact .deviceEnd g child
    | some i =>
      obtain rfl := Except.ok.inj h
      exact .device g child i
  | device =>
    cases dev with
    | none =>
      obtain rfl := Except.ok.inj h
      exact .saulStay g child none
    | some i =>
      simp only [saulNodeGetnextChild] at h
      split_ifs at h
      · obtain rfl := Except.ok.inj h
        exact .saulLeaf g child i
      · obtain rfl := Except.ok.inj h
        exact .saulStay g child (some i)
  | field =>
    simp only [saulNodeGetnextChild] at h
    split_ifs at h with hlast
    · obtain rfl := Except.ok.inj h
      exact .saulEnd g child dev
    · obtain rfl := Except.ok.inj h
      exact .saulField g child dev hlast

/-- The recursive call begins at the address of a neighbour, since there is one left. -/
theorem netifNextNeighbour_childStep {g : Globals} {child : DbNode} {iface : Option Nat}
    {level : NetifLevel} (hlevel : level = .neighbour ∨ level = .qos) {d : Nat} {c' : Cursor}
    (h : netifNextNeighbour (netifGetnextChildDepth db.env (d + 1)) ⟨g, .netif iface level, child⟩
      iface = .ok c') : ChildStep db ⟨g, .netif iface level, child⟩ c' := by
  dsimp only [netifNextNeighbour] at h
  split_ifs at h with hzero
  · obtain rfl := Except.ok.inj h
    exact .lastNeighbour g child iface level hlevel
  · have hpos : ¬ g.numNeighbours - 1 ≤ 0 := fun hle => hzero (UInt8.le_zero_iff.mp hle)
    simp only [netifGetnextChildDepth, netifGetnextChildBody, if_neg hpos, if_true] at h
    obtain rfl := Except.ok.inj h
    exact .nextNeighbour g child iface level hlevel

theorem netif_childStep {g : Globals} {child : DbNode} {iface : Option Nat} {level : NetifLevel}
    {c' : Cursor} (h : netifNodeGetnextChild db.env ⟨g, .netif iface level, child⟩ = .ok c') :
    ChildStep db ⟨g, .netif iface level, child⟩ c' := by
  rw [netifNodeGetnextChild, netifGetnextChildDepth] at h
  cases level with
  | root =>
    cases iface with
    | none =>
      obtain rfl := Except.ok.inj h
      exact .ifaceEnd g child
    | some i =>
      obtain rfl := Except.ok.inj h
      exact .iface g child i
  | iface =>
    simp only [netifGetnextChildBody] at h
    split_ifs at h
    · obtain rfl := Except.ok.inj h
      exact .netifLeaf g child iface
    · obtain rfl := Except.ok.inj h
      exact .netifStay g child iface
  | field =>
    simp only [netifGetnextChildBody] at h
    split_ifs at h with hn hf
    · obtain rfl := Except.ok.inj h
      exact .neighbours g child iface hn.1
    · obtain rfl := Except.ok.inj h
      exact .netifField g child iface hf
    · obtain rfl := Except.ok.inj h
      exact .netifFieldEnd g child iface
  | neighbour =>
    simp only [netifGetnextChildBody] at h
    split_ifs at h with hn hs hq
    · obtain rfl := Except.ok.inj h
      exact .noNeighbour g child iface
    · obtain rfl := Except.ok.inj h
      exact .neighbour g child iface hs
    · obtain rfl := Except.ok.inj h
      exact .qos g child iface hs hq
    · exact netifNextNeighbour_childStep (Or.inl rfl) h
  | qos =>
    simp only [netifGetnextChildBody] at h
    split_ifs at h with hq hlast
    · obtain rfl := Except.ok.inj h
      exact .qosField g child iface hq
    · obtain rfl := Except.ok.inj h
      exact .qosEnd g child iface hlast.1
    · exact netifNextNeighbour_childStep (Or.inr rfl) h

/-- **Taking a child is one of the steps.** -/
theorem childStep_of_ok {c c' : Cursor} (h : dbNodeGetNextChild db c = .ok c') :
    ChildStep db c c' := by
  obtain ⟨g, node, child⟩ := c
  cases node with
  | null => simp [dbNodeGetNextChild] at h
  | root idx =>
    simp only [dbNodeGetNextChild, rootGetNextChild] at h
    split_ifs at h
    · obtain rfl := Except.ok.inj h
      exact .branch g child idx
    · obtain rfl := Except.ok.inj h
      exact .rootEnd g child idx
  | fl flIdx subIdx isRoot => exact fl_childStep h
  | ps pid level => exact ps_childStep h
  | saul dev level => exact saul_childStep h
  | netif iface level => exact netif_childStep h

/-! ## Reading a value -/

/-- The shared variables after the value of a leaf has been read. -/
def afterValue (env : Env) (g : Globals) : DbNode → Globals
  | .netif (some i) _ =>
    if g.netifFieldCount = 3 then
      match env.ifaces[i]? with
      | some n => (env.nibNc n.id).foldl countNeighbour { g with numNeighbours := 0 }
      | none => g
    else g
  | _ => g

theorem afterValue_of_ne {env : Env} {g : Globals} (h : g.netifFieldCount ≠ 3) (node : DbNode) :
    afterValue env g node = g := by
  unfold afterValue
  split
  · rw [if_neg h]
  · rfl

/-- Counting neighbours does not move the positions among the fields. -/
theorem foldl_countNeighbour_frame (ips : List Ipv6Addr) (g : Globals) :
    (ips.foldl countNeighbour g).netifFieldCount = g.netifFieldCount ∧
      (ips.foldl countNeighbour g).netifSubFieldCount = g.netifSubFieldCount ∧
      (ips.foldl countNeighbour g).fieldCount = g.fieldCount ∧
      (ips.foldl countNeighbour g).saulFieldCount = g.saulFieldCount := by
  induction ips generalizing g with
  | nil => exact ⟨rfl, rfl, rfl, rfl⟩
  | cons ip ips ih => exact ih (countNeighbour g ip)

/-- Reading a value leaves the variables alone, or it counts the neighbours of an interface. -/
theorem afterValue_cases (env : Env) (g : Globals) (node : DbNode) :
    afterValue env g node = g ∨
      ∃ id, afterValue env g node
        = (env.nibNc id).foldl countNeighbour { g with numNeighbours := 0 } := by
  unfold afterValue
  split
  · split_ifs
    · split
      · exact Or.inr ⟨_, rfl⟩
      · exact Or.inl rfl
    · exact Or.inl rfl
  · exact Or.inl rfl

theorem intValue_afterValue {g g' : Globals} {node : DbNode} {v : Int}
    (h : dbNodeGetIntValue db g node = .ok (g', v)) : g' = afterValue db.env g node := by
  unfold dbNodeGetIntValue at h
  obtain ⟨type, -, h⟩ := bind_eq_ok.mp h
  obtain ⟨_, -, h⟩ := bind_eq_ok.mp h
  cases node with
  | null | root _ | saul _ _ => cases h
  | fl flIdx subIdx isRoot =>
    obtain ⟨w, -, h⟩ := bind_eq_ok.mp h
    exact (congrArg Prod.fst (Except.ok.inj h)).symm
  | ps pid level =>
    obtain ⟨w, -, h⟩ := bind_eq_ok.mp h
    exact (congrArg Prod.fst (Except.ok.inj h)).symm
  | netif iface level =>
    dsimp only [netifNodeGetintValue] at h
    by_cases hthree : g.netifFieldCount = 3
    · have hzero : ¬ g.netifFieldCount = 0 := by
        rw [hthree]
        decide
      rw [if_neg hzero, if_pos hthree] at h
      obtain ⟨n, hn, h⟩ := bind_eq_ok.mp h
      cases iface with
      | none => cases hn
      | some i =>
        simp only [Env.iface] at hn
        cases hi : db.env.ifaces[i]? with
        | none =>
          rw [hi] at hn
          cases hn
        | some n' =>
          rw [hi] at hn
          obtain rfl := Except.ok.inj hn
          simp only [afterValue, if_pos hthree, hi]
          exact (congrArg Prod.fst (Except.ok.inj h)).symm
    · rw [afterValue_of_ne hthree]
      split_ifs at h
      · obtain ⟨n, -, h⟩ := bind_eq_ok.mp h
        exact (congrArg Prod.fst (Except.ok.inj h)).symm
      · exact (congrArg Prod.fst (Except.ok.inj h)).symm

/-- The text of a value is that of an integer, or reading it leaves the variables alone. -/
theorem valueToStr_cases {n : Nat} {g g' : Globals} {node : DbNode} {b b' : Buf n} {r : Int}
    (h : dbNodeValueToStr db g node b = .ok (g', b', r)) :
    (∃ v, dbNodeGetIntValue db g node = .ok (g', v)) ∨
      (g' = g ∧ dbNodeGetType db g node ≠ .ok .int) := by
  unfold dbNodeValueToStr at h
  obtain ⟨_, -, h⟩ := bind_eq_ok.mp h
  obtain ⟨type, htype, h⟩ := bind_eq_ok.mp h
  rw [htype]
  cases type with
  | int =>
    obtain ⟨⟨g₁, v⟩, hv, h⟩ := bind_eq_ok.mp h
    obtain ⟨_, -, h⟩ := bind_eq_ok.mp h
    obtain ⟨_, -, h⟩ := bind_eq_ok.mp h
    obtain ⟨rfl, -⟩ := Prod.mk.inj (Except.ok.inj h)
    exact Or.inl ⟨v, hv⟩
  | float =>
    obtain ⟨_, -, h⟩ := bind_eq_ok.mp h
    obtain ⟨_, -, h⟩ := bind_eq_ok.mp h
    obtain ⟨_, -, h⟩ := bind_eq_ok.mp h
    exact Or.inr ⟨(congrArg Prod.fst (Except.ok.inj h)).symm, by simp⟩
  | str =>
    obtain ⟨_, -, h⟩ := bind_eq_ok.mp h
    obtain ⟨_, -, h⟩ := bind_eq_ok.mp h
    exact Or.inr ⟨(congrArg Prod.fst (Except.ok.inj h)).symm, by simp⟩
  | null | inner => exact Or.inr ⟨(congrArg Prod.fst (Except.ok.inj h)).symm, by simp⟩

/-! ## Searching -/

/-- What every child step leads to, and with it what a search leads to. -/
theorem searchChild_leads {I J : Cursor → Prop}
    (hi : ∀ {c c' : Cursor}, ChildStep db c c' → I c → I c' ∧ J c') {comp : List Char} {fuel : Nat}
    {s s' : Search} {found : Bool} (h : searchChild db comp fuel s = .ok (found, s'))
    (hs : I s.cur) : J s'.cur := by
  induction fuel generalizing s with
  | zero => simp [searchChild] at h
  | succ fuel ih =>
    obtain ⟨cur, hcur, hrest⟩ := searchChild_succ_cases db h
    obtain ⟨hcur, hlast⟩ := hi (childStep_of_ok hcur) hs
    rcases hrest with ⟨-, -, rfl⟩ | ⟨-, nameBuf, -, ⟨-, -, rfl⟩ | ⟨-, hrest⟩⟩
    · exact hlast
    · exact hlast
    · exact ih hrest hcur

/-- What every child step keeps is kept by a search. -/
theorem searchChild_invariant {I : Cursor → Prop}
    (hi : ∀ {c c' : Cursor}, ChildStep db c c' → I c → I c') {comp : List Char} {fuel : Nat}
    {s s' : Search} {found : Bool} (h : searchChild db comp fuel s = .ok (found, s'))
    (hs : I s.cur) : I s'.cur :=
  searchChild_leads (fun hstep hc => ⟨hi hstep hc, hi hstep hc⟩) h hs

/-! ## What every operation keeps -/

variable (db)

/-- A property of the shared variables that taking a child and counting neighbours keep. -/
structure Kept (P : Globals → Prop) : Prop where
  child : ∀ {c c' : Cursor}, ChildStep db c c' → P c.g → P c'.g
  count : ∀ {g : Globals} (ips : List Ipv6Addr), P g →
    P (ips.foldl countNeighbour { g with numNeighbours := 0 })

variable {db}

namespace Kept

variable {P : Globals → Prop}

/-- The variables behind a descent or a failed search. -/
def outcomeGlobals : Except Stop Descent → Option Globals
  | .ok d => some d.g
  | .error (.notFound g _) => some g
  | .error (.trap _) => none

theorem outcomeGlobals_of_lookupResult {out : Except Stop Descent} {found : Found}
    (h : lookupResult out = .ok found) : outcomeGlobals out = some found.g := by
  rcases out with (t | ⟨g, node⟩) | d
  · simp [lookupResult] at h
  · obtain rfl := Except.ok.inj h
    rfl
  · obtain rfl := Except.ok.inj h
    rfl

theorem descend (hk : Kept db P) {fuel : Nat} {d : Descent} {comp : List Char} {g : Globals}
    (h : outcomeGlobals (Dca.descend db fuel d comp) = some g) (hp : P d.g) : P g := by
  unfold Dca.descend at h
  cases hs : Dca.searchChild db comp fuel ⟨⟨d.g, d.node, d.node⟩, d.nameBuf⟩ with
  | error t =>
    rw [hs] at h
    simp [searchOutcome, outcomeGlobals] at h
  | ok r =>
    obtain ⟨found, s'⟩ := r
    have hs' := searchChild_invariant (I := fun c => P c.g) hk.child hs hp
    rw [hs] at h
    cases found <;> (obtain rfl := Option.some.inj h; exact hs')

theorem fold (hk : Kept db P) {fuel : Nat} {comps : List (List Char)} {d : Descent} {g : Globals}
    (h : outcomeGlobals (comps.foldlM (Dca.descend db fuel) d) = some g) (hp : P d.g) : P g := by
  induction comps generalizing d with
  | nil =>
    obtain rfl := Option.some.inj h
    exact hp
  | cons comp comps ih =>
    rw [List.foldlM_cons] at h
    cases hd : Dca.descend db fuel d comp with
    | ok d' =>
      rw [hd] at h
      exact ih h (hk.descend (g := d'.g) (by rw [hd]; rfl) hp)
    | error stop =>
      rw [hd] at h
      exact hk.descend (by rw [hd]; exact h) hp

theorem find (hk : Kept db P) {fuel : Nat} {g : Globals} {path : CString} {child : DbNode}
    {nameBuf : NameBuf} {found : Found}
    (h : dbFindNodeByPath db fuel g path child nameBuf = .ok found) (hp : P g) : P found.g := by
  rw [dbFindNodeByPath_eq_fold] at h
  exact hk.fold (outcomeGlobals_of_lookupResult h) hp

theorem intValue (hk : Kept db P) {g g' : Globals} {node : DbNode} {v : Int}
    (h : dbNodeGetIntValue db g node = .ok (g', v)) (hp : P g) : P g' := by
  rw [intValue_afterValue h]
  rcases afterValue_cases db.env g node with hsame | ⟨id, hcount⟩
  · rw [hsame]
    exact hp
  · rw [hcount]
    exact hk.count _ hp

theorem valueToStr (hk : Kept db P) {n : Nat} {g g' : Globals} {node : DbNode} {b b' : Buf n}
    {r : Int} (h : dbNodeValueToStr db g node b = .ok (g', b', r)) (hp : P g) : P g' := by
  rcases valueToStr_cases h with ⟨v, hv⟩ | ⟨rfl, -⟩
  · exact hk.intValue hv hp
  · exact hp

theorem printNodeContent (hk : Kept db P) {stack : Stack} {g g' : Globals} {node : DbNode}
    {text : CString} (h : Dca.printNodeContent db stack g node = .ok (g', text)) (hp : P g) :
    P g' := by
  unfold Dca.printNodeContent at h
  obtain ⟨⟨g₁, b, r⟩, hv, h⟩ := bind_eq_ok.mp h
  obtain ⟨_, -, h⟩ := bind_eq_ok.mp h
  obtain ⟨rfl, -⟩ := Prod.mk.inj (Except.ok.inj h)
  exact hk.valueToStr hv hp

theorem tree (hk : Kept db P) {stack : Stack} (fuel : Nat) :
    (∀ {depth : Nat} {g g' : Globals} {node node' : DbNode} {out : List Printed},
        treeR db stack fuel depth g node = .ok (g', node', out) → P g → P g') ∧
      ∀ {depth : Nat} {c c' : Cursor} {out : List Printed},
        treeChildren db stack fuel depth c = .ok (c', out) → P c.g → P c'.g := by
  -- a node and its list of children call each other, so one induction is on the fuel of both
  induction fuel with
  | zero =>
    refine ⟨?_, ?_⟩
    · intro depth g g' node node' out h
      simp [treeR] at h
    · intro depth c c' out h
      simp [treeChildren] at h
  | succ fuel ih =>
    obtain ⟨ihNode, ihChildren⟩ := ih
    refine ⟨?_, ?_⟩
    · intro depth g g' node node' out h hp
      rw [treeR] at h
      obtain ⟨name, -, h⟩ := bind_eq_ok.mp h
      obtain ⟨type, -, h⟩ := bind_eq_ok.mp h
      cases type with
      | null =>
        obtain ⟨rfl, -⟩ := Prod.mk.inj (Except.ok.inj h)
        exact hp
      | inner =>
        obtain ⟨c, hc, h⟩ := bind_eq_ok.mp h
        obtain ⟨⟨c', rest⟩, hrest, h⟩ := bind_eq_ok.mp h
        obtain ⟨rfl, -⟩ := Prod.mk.inj (Except.ok.inj h)
        exact ihChildren hrest (hk.child (childStep_of_ok hc) hp)
      | int | float | str =>
        obtain ⟨⟨g₁, text⟩, hv, h⟩ := bind_eq_ok.mp h
        obtain ⟨rfl, -⟩ := Prod.mk.inj (Except.ok.inj h)
        exact hk.printNodeContent hv hp
    · intro depth c c' out h hp
      rw [treeChildren] at h
      obtain ⟨isNull, -, h⟩ := bind_eq_ok.mp h
      cases isNull with
      | true =>
        obtain ⟨rfl, -⟩ := Prod.mk.inj (Except.ok.inj h)
        exact hp
      | false =>
        obtain ⟨⟨g₁, child, first⟩, hfirst, h⟩ := bind_eq_ok.mp h
        obtain ⟨c₁, hc₁, h⟩ := bind_eq_ok.mp h
        obtain ⟨⟨c₂, rest⟩, hrest, h⟩ := bind_eq_ok.mp h
        obtain ⟨rfl, -⟩ := Prod.mk.inj (Except.ok.inj h)
        exact ihChildren hrest (hk.child (childStep_of_ok hc₁) (ihNode hfirst hp))

theorem dump (hk : Kept db P) {stack : Stack} {fuel : Nat} {g g' : Globals} {out : List Printed}
    (h : dcadump db stack fuel g = .ok (g', out)) (hp : P g) : P g' := by
  unfold dcadump at h
  obtain ⟨found, hfound, h⟩ := bind_eq_ok.mp h
  have hp' := hk.find hfound hp
  split_ifs at h
  · obtain ⟨rfl, -⟩ := Prod.mk.inj (Except.ok.inj h)
    exact hp'
  · obtain ⟨⟨g₁, node, out⟩, htree, h⟩ := bind_eq_ok.mp h
    obtain ⟨rfl, -⟩ := Prod.mk.inj (Except.ok.inj h)
    exact (hk.tree fuel).1 htree hp'

theorem exec (hk : Kept db P) {stack : Stack} {fuel : Nat} {s s' : Session} {op : DbOp}
    (h : op.exec db stack fuel s = .ok s') (hp : P s.g) : P s'.g := by
  cases op with
  | find path =>
    obtain ⟨found, hfound, h⟩ := bind_eq_ok.mp h
    have hp' := hk.find hfound hp
    split_ifs at h <;> (obtain rfl := Except.ok.inj h; exact hp')
  | nextChild i out =>
    obtain ⟨node, -, h⟩ := bind_eq_ok.mp h
    obtain ⟨c, hc, h⟩ := bind_eq_ok.mp h
    obtain rfl := Except.ok.inj h
    exact hk.child (childStep_of_ok hc) hp
  | name i =>
    obtain ⟨node, -, h⟩ := bind_eq_ok.mp h
    obtain ⟨_, -, h⟩ := bind_eq_ok.mp h
    obtain rfl := Except.ok.inj h
    exact hp
  | value i n =>
    obtain ⟨node, -, h⟩ := bind_eq_ok.mp h
    obtain ⟨⟨g, b, r⟩, hv, h⟩ := bind_eq_ok.mp h
    obtain rfl := Except.ok.inj h
    exact hk.valueToStr hv hp
  | dump =>
    obtain ⟨⟨g, out⟩, hd, h⟩ := bind_eq_ok.mp h
    obtain rfl := Except.ok.inj h
    exact hk.dump hd hp

/-- **A kept property that holds at first holds after every history.** -/
theorem history (hk : Kept db P) {s s' : Session} {ops : List DbOp} (h : History db s ops s')
    (hp : P s.g) : P s'.g := by
  induction h with
  | nil s => exact hp
  | cons stack fuel step rest ih => exact ih (hk.exec step hp)

end Kept

/-! ## What holds along a lookup -/

variable (db)

/-- A property of cursors that holds at the root and is handed on to children. -/
structure LookupInvariant (I : Cursor → Prop) : Prop where
  root : ∀ g : Globals, I ⟨g, dbGetRoot, dbGetRoot⟩
  step : ∀ {c c' : Cursor}, ChildStep db c c' → I c → I c'
  descend : ∀ {c : Cursor}, I c → c.child ≠ .null → I ⟨c.g, c.child, c.child⟩

variable {db}

/-- What a successful descent found is a child that is not null. -/
theorem descend_eq_ok {fuel : Nat} {d d' : Descent} {comp : List Char}
    (h : descend db fuel d comp = .ok d') :
    ∃ s', searchChild db comp fuel ⟨⟨d.g, d.node, d.node⟩, d.nameBuf⟩ = .ok (true, s') ∧
      d' = ⟨s'.cur.g, s'.cur.child, s'.nameBuf⟩ ∧ s'.cur.child ≠ .null := by
  unfold descend at h
  cases hs : searchChild db comp fuel ⟨⟨d.g, d.node, d.node⟩, d.nameBuf⟩ with
  | error t =>
    rw [hs] at h
    simp [searchOutcome] at h
  | ok r =>
    obtain ⟨found, s'⟩ := r
    rw [hs] at h
    cases found with
    | false => simp [searchOutcome] at h
    | true =>
      obtain rfl := Except.ok.inj h
      refine ⟨s', rfl, rfl, ?_⟩
      intro hnull
      have h := searchChild_notNull db hs
      rw [hnull] at h
      simp [dbNodeIsNull, dbNodeGetType] at h

namespace LookupInvariant

variable {I : Cursor → Prop}

theorem fold (hi : LookupInvariant db I) {fuel : Nat} {comps : List (List Char)} {d d' : Descent}
    (h : comps.foldlM (Dca.descend db fuel) d = .ok d') (hd : I ⟨d.g, d.node, d.node⟩) :
    I ⟨d'.g, d'.node, d'.node⟩ := by
  induction comps generalizing d with
  | nil =>
    obtain rfl := Except.ok.inj h
    exact hd
  | cons comp comps ih =>
    rw [List.foldlM_cons] at h
    obtain ⟨d₁, hd₁, h⟩ := bind_eq_ok.mp h
    refine ih h ?_
    obtain ⟨s', hs, rfl, hne⟩ := descend_eq_ok hd₁
    exact hi.descend (searchChild_invariant hi.step hs hd) hne

/-- **What holds along a lookup holds at the node it finds.** -/
theorem find (hi : LookupInvariant db I) {fuel : Nat} {g : Globals} {path : CString}
    {child : DbNode} {nameBuf : NameBuf} {found : Found}
    (h : dbFindNodeByPath db fuel g path child nameBuf = .ok found) (hcode : found.code = 0) :
    I ⟨found.g, found.node, found.node⟩ := by
  rw [dbFindNodeByPath_eq_fold] at h
  cases hf : (pathComponents path).foldlM (Dca.descend db fuel) (.start g) with
  | error stop =>
    rw [hf] at h
    cases stop with
    | trap t => simp [lookupResult] at h
    | notFound g' node =>
      obtain rfl := Except.ok.inj h
      simp [enoent] at hcode
  | ok d =>
    rw [hf] at h
    obtain rfl := Except.ok.inj h
    exact hi.fold hf (hi.root g)

end LookupInvariant

end Dca
