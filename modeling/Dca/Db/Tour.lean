import Dca.Db.Walk
import Dca.Lib.Forest

/-!
# The way of a dump

`_tree_r` visits a node and then its children, each of which it descends into before it asks for
the next one. A visit is a node together with the shared variables as they are then, and the
visits of a traversal form a forest (`Tours`). What is printed has no influence on the way. The
forest of a whole dump is given in terms of the kernel and of the shared variables at its start
(`rootDump`, `tourTo_root`).
-/

namespace Dca

open CLib

/-- A node that a traversal visits, with the shared variables as they are then. -/
structure Visit where
  g : Globals
  node : DbNode
  deriving DecidableEq

/-! ## Values -/

section Values

variable {db : Db} {g : Globals} {node : DbNode}

/-- While the counter stands at `num_neighbours`, the leaves are integers. -/
theorem afterValue_of_type {type : DbNodeType}
    (htype : dbNodeGetType db g node = .ok type) (hleaf : type ≠ .int ∧ type ≠ .inner)
    (env : Env) : afterValue env g node = g := by
  by_cases hthree : g.netifFieldCount = 3
  · cases node with
    | null | root _ | fl _ _ _ | ps _ _ | saul _ _ => rfl
    | netif iface level =>
      have htype' : netifNodeGettype g level = type := Except.ok.inj htype
      unfold netifNodeGettype at htype'
      simp only [hthree, or_true, if_true] at htype'
      split_ifs at htype' with hroot hiface
      · exact absurd htype'.symm hleaf.2
      · exact absurd htype'.symm hleaf.2
      · exact absurd htype'.symm hleaf.1
  · exact afterValue_of_ne hthree node

/-- **Reading a leaf as text** leaves the variables as reading its value does. -/
theorem valueToStr_afterValue {n : Nat} {g' : Globals} {b b' : Buf n} {r : Int}
    {type : DbNodeType} (htype : dbNodeGetType db g node = .ok type) (hleaf : type ≠ .inner)
    (h : dbNodeValueToStr db g node b = .ok (g', b', r)) : g' = afterValue db.env g node := by
  rcases valueToStr_cases h with ⟨v, hv⟩ | ⟨rfl, hnot⟩
  · exact intValue_afterValue hv
  · have hint : type ≠ .int := by
      rintro rfl
      exact hnot htype
    exact (afterValue_of_type htype ⟨hint, hleaf⟩ db.env).symm

end Values

/-! ## Tours -/

section Tours

variable (db : Db) (junk : DbNode)

/--
The way of `_tree_r` through the children of a node, from a child that has been taken on: through
the cursors, and apart from what is printed. `junk` is what the variable of a child holds at first.
-/
inductive Tours : Cursor → Cursor → Forest Visit → Prop where
  | nil {c : Cursor} (hnull : c.child = .null) : Tours c c .nil
  | leaf {c c₁ c' : Cursor} {type : DbNodeType} {rest : Forest Visit}
      (htype : dbNodeGetType db c.g c.child = .ok type) (hleaf : type ≠ .null ∧ type ≠ .inner)
      (hnext : dbNodeGetNextChild db ⟨afterValue db.env c.g c.child, c.node, c.child⟩ = .ok c₁)
      (hrest : Tours c₁ c' rest) : Tours c c' (.node ⟨c.g, c.child⟩ .nil rest)
  | folder {c c₀ c₀' c₁ c' : Cursor} {below rest : Forest Visit}
      (htype : dbNodeGetType db c.g c.child = .ok .inner)
      (hfirst : dbNodeGetNextChild db ⟨c.g, c.child, junk⟩ = .ok c₀) (hbelow : Tours c₀ c₀' below)
      (hnext : dbNodeGetNextChild db ⟨c₀'.g, c.node, c₀'.node⟩ = .ok c₁)
      (hrest : Tours c₁ c' rest) : Tours c c' (.node ⟨c.g, c.child⟩ below rest)

/-- The node is a leaf. -/
def IsLeafAt (g : Globals) (node : DbNode) : Prop :=
  ∃ type, dbNodeGetType db g node = .ok type ∧ type ≠ .null ∧ type ≠ .inner

/-- The way through a leaf or a folder, which leaves `g'` in the shared variables. -/
def TourTo (g : Globals) (node : DbNode) (g' : Globals) (below : Forest Visit) : Prop :=
  (IsLeafAt db g node ∧ g' = afterValue db.env g node ∧ below = .nil) ∨
    (dbNodeGetType db g node = .ok .inner ∧
      ∃ c c', dbNodeGetNextChild db ⟨g, node, junk⟩ = .ok c ∧ c'.g = g' ∧ Tours db junk c c' below)

/-- The way through the children that are still to be taken. -/
def ToursFrom (c : Cursor) (g' : Globals) (forest : Forest Visit) : Prop :=
  ∃ c₁ c', dbNodeGetNextChild db c = .ok c₁ ∧ c'.g = g' ∧ Tours db junk c₁ c' forest

/-- The same up to the last cursor. -/
def ToursTo (c c' : Cursor) (forest : Forest Visit) : Prop :=
  ∃ c₁, dbNodeGetNextChild db c = .ok c₁ ∧ Tours db junk c₁ c' forest

variable {db junk}

theorem ToursTo.from {c c' : Cursor} {forest : Forest Visit} (h : ToursTo db junk c c' forest) :
    ToursFrom db junk c c'.g forest := by
  obtain ⟨c₁, hnext, htours⟩ := h
  exact ⟨c₁, c', hnext, rfl, htours⟩

theorem ToursTo.last {c c₁ : Cursor} (hnext : dbNodeGetNextChild db c = .ok c₁)
    (hnull : c₁.child = .null) : ToursTo db junk c c₁ .nil := ⟨_, hnext, .nil hnull⟩

/-- A child leaves something in its variable, and then comes what is behind it. -/
theorem TourTo.before {c c₁ : Cursor} {g₁ : Globals} {below : Forest Visit}
    (hnext : dbNodeGetNextChild db c = .ok c₁) (hchild : TourTo db junk c₁.g c₁.child g₁ below) :
    ∃ child, ∀ c' rest, ToursTo db junk ⟨g₁, c₁.node, child⟩ c' rest →
      ToursTo db junk c c' (.node ⟨c₁.g, c₁.child⟩ below rest) := by
  rcases hchild with ⟨⟨type, htype, hleaf⟩, rfl, rfl⟩ | ⟨htype, c₀, c₀', hfirst, rfl, hbelow⟩
  · refine ⟨c₁.child, fun c' rest hrest => ?_⟩
    obtain ⟨c₂, hnext', hrest⟩ := hrest
    exact ⟨_, hnext, .leaf htype hleaf hnext' hrest⟩
  · refine ⟨c₀'.node, fun c' rest hrest => ?_⟩
    obtain ⟨c₂, hnext', hrest⟩ := hrest
    exact ⟨_, hnext, .folder htype hfirst hbelow hnext' hrest⟩

theorem ToursTo.child {c c₁ c' : Cursor} {g₁ : Globals} {below rest : Forest Visit}
    (hnext : dbNodeGetNextChild db c = .ok c₁) (hchild : TourTo db junk c₁.g c₁.child g₁ below)
    (hrest : ∀ child, ToursTo db junk ⟨g₁, c₁.node, child⟩ c' rest) :
    ToursTo db junk c c' (.node ⟨c₁.g, c₁.child⟩ below rest) := by
  obtain ⟨child, hbefore⟩ := hchild.before hnext
  exact hbefore c' rest (hrest child)

theorem ToursFrom.last {c c₁ : Cursor} (hnext : dbNodeGetNextChild db c = .ok c₁)
    (hnull : c₁.child = .null) : ToursFrom db junk c c₁.g .nil := (ToursTo.last hnext hnull).from

theorem ToursFrom.child {c c₁ : Cursor} {g₁ g' : Globals} {below rest : Forest Visit}
    (hnext : dbNodeGetNextChild db c = .ok c₁) (hchild : TourTo db junk c₁.g c₁.child g₁ below)
    (hrest : ∀ child, ToursFrom db junk ⟨g₁, c₁.node, child⟩ g' rest) :
    ToursFrom db junk c g' (.node ⟨c₁.g, c₁.child⟩ below rest) := by
  obtain ⟨child, hbefore⟩ := hchild.before hnext
  obtain ⟨c₂, c', hnext', rfl, htours⟩ := hrest child
  exact (hbefore c' rest ⟨c₂, hnext', htours⟩).from

theorem TourTo.leaf {g : Globals} {node : DbNode} (h : IsLeafAt db g node) :
    TourTo db junk g node (afterValue db.env g node) .nil := Or.inl ⟨h, rfl, rfl⟩

theorem TourTo.folder {g g' : Globals} {node : DbNode} {below : Forest Visit}
    (htype : dbNodeGetType db g node = .ok .inner)
    (h : ToursFrom db junk ⟨g, node, junk⟩ g' below) : TourTo db junk g node g' below :=
  Or.inr ⟨htype, h⟩

end Tours

/-! ## There is only one way -/

section Unique

variable {db : Db} {junk : DbNode}

theorem Tours.unique {c c' c'' : Cursor} {forest forest' : Forest Visit}
    (h : Tours db junk c c' forest) (h' : Tours db junk c c'' forest') :
    c' = c'' ∧ forest = forest' := by
  induction h generalizing c'' forest' with
  | @nil c hnull =>
    cases h' with
    | nil _ => exact ⟨rfl, rfl⟩
    | leaf htype hleaf _ _ =>
      rw [hnull] at htype
      exact absurd (Except.ok.inj htype).symm hleaf.1
    | folder htype _ _ _ _ =>
      rw [hnull] at htype
      cases htype
  | leaf htype hleaf hnext _ ih =>
    cases h' with
    | nil hnull =>
      rw [hnull] at htype
      exact absurd (Except.ok.inj htype).symm hleaf.1
    | leaf _ _ hnext' hrest' =>
      obtain rfl := Except.ok.inj (hnext.symm.trans hnext')
      obtain ⟨rfl, rfl⟩ := ih hrest'
      exact ⟨rfl, rfl⟩
    | folder htype' _ _ _ _ => exact absurd (Except.ok.inj (htype.symm.trans htype')) hleaf.2
  | folder htype hfirst _ hnext _ ihBelow ihRest =>
    cases h' with
    | nil hnull =>
      rw [hnull] at htype
      cases htype
    | leaf htype' hleaf' _ _ => exact absurd (Except.ok.inj (htype'.symm.trans htype)) hleaf'.2
    | folder _ hfirst' hbelow' hnext' hrest' =>
      obtain rfl := Except.ok.inj (hfirst.symm.trans hfirst')
      obtain ⟨rfl, rfl⟩ := ihBelow hbelow'
      obtain rfl := Except.ok.inj (hnext.symm.trans hnext')
      obtain ⟨rfl, rfl⟩ := ihRest hrest'
      exact ⟨rfl, rfl⟩

theorem TourTo.unique {g g' g'' : Globals} {node : DbNode} {below below' : Forest Visit}
    (h : TourTo db junk g node g' below) (h' : TourTo db junk g node g'' below') :
    g' = g'' ∧ below = below' := by
  rcases h with ⟨⟨type, htype, hleaf⟩, rfl, rfl⟩ | ⟨htype, c, c', hfirst, rfl, htours⟩
  · rcases h' with ⟨-, rfl, rfl⟩ | ⟨htype', -⟩
    · exact ⟨rfl, rfl⟩
    · exact absurd (Except.ok.inj (htype.symm.trans htype')) hleaf.2
  · rcases h' with ⟨⟨type, htype', hleaf⟩, -⟩ | ⟨-, c₁, c₁', hfirst', rfl, htours'⟩
    · exact absurd (Except.ok.inj (htype'.symm.trans htype)) hleaf.2
    · obtain rfl := Except.ok.inj (hfirst.symm.trans hfirst')
      obtain ⟨rfl, rfl⟩ := htours.unique htours'
      exact ⟨rfl, rfl⟩

end Unique

/-! ## Processes -/

section Families

variable {db : Db} {junk : DbNode}

/-- The live threads from `pid` on. -/
def Env.pidsFrom (env : Env) (pid : Nat) : List Nat :=
  (List.range' pid (env.kernelPidLast + 1 - pid)).filter fun p => (env.schedThreads p).isSome

theorem mem_pidsFrom {env : Env} {pid p : Nat} :
    p ∈ env.pidsFrom pid ↔ pid ≤ p ∧ p ≤ env.kernelPidLast ∧ (env.schedThreads p).isSome := by
  rw [Env.pidsFrom, List.mem_filter, List.mem_range'_1]
  constructor
  · rintro ⟨⟨hge, hlt⟩, hsome⟩
    exact ⟨hge, by omega, hsome⟩
  · rintro ⟨hge, hle, hsome⟩
    exact ⟨⟨hge, by omega⟩, hsome⟩

theorem pidsFrom_cons {env : Env} {pid : Nat} (h : pid ≤ env.kernelPidLast) :
    env.pidsFrom pid
      = if (env.schedThreads pid).isSome then pid :: env.pidsFrom (pid + 1)
        else env.pidsFrom (pid + 1) := by
  unfold Env.pidsFrom
  rw [show env.kernelPidLast + 1 - pid = env.kernelPidLast + 1 - (pid + 1) + 1 by omega,
    List.range'_succ, List.filter_cons]

theorem pidsFrom_last (env : Env) : env.pidsFrom (env.kernelPidLast + 1) = [] := by
  simp [Env.pidsFrom]

/-- Behind a pid the next thread comes first. -/
theorem pidsFrom_loop (env : Env) (n pid : Nat) (hn : pid + n = env.kernelPidLast + 1)
    (hpos : 0 < n) {next : Nat} (h : getNextPidLoop env n pid = .ok next) :
    env.pidsFrom (pid + 1) = env.pidsFrom next := by
  induction n generalizing pid with
  | zero => omega
  | succ n ih =>
    unfold getNextPidLoop at h
    by_cases hend : pid + 1 = env.kernelPidLast + 1
    · rw [if_pos hend] at h
      rw [← Except.ok.inj h, hend]
    · rw [if_neg hend] at h
      cases hp : env.schedThreads (pid + 1) with
      | none =>
        rw [hp] at h
        rw [pidsFrom_cons (by omega), hp]
        exact ih (pid + 1) (by omega) (by omega) h
      | some p =>
        rw [hp] at h
        rw [← Except.ok.inj h]

theorem pidsFrom_next {env : Env} {pid next : Nat} (hlive : env.Live pid)
    (h : getNextPid env pid = .ok next) : env.pidsFrom pid = pid :: env.pidsFrom next := by
  obtain ⟨hfirst, hlast, hsome⟩ := hlive
  have hle : pid ≤ env.kernelPidLast + 1 := by omega
  simp only [getNextPid, hfirst, hle, decide_true, assert_true, ok_bind] at h
  rw [pidsFrom_cons hlast, if_pos hsome]
  exact congrArg (pid :: ·) (pidsFrom_loop env _ pid (by omega) (by omega) h)

/-- The fields of a process, from the one that `_field_count` stands at, with `n` behind it. -/
def psFieldForest (pid : Nat) : Nat → Globals → Forest Visit
  | 0, g => .leaf ⟨g, .ps pid .field⟩
  | n + 1, g =>
    .node ⟨g, .ps pid .field⟩ .nil
      (psFieldForest pid n { g with fieldCount := g.fieldCount + 1 })

/-- The fields behind the current one. -/
def fieldsLeft (g : Globals) : Nat := (4 - g.fieldCount.toInt).toNat

def psForest : List Nat → Globals → Forest Visit
  | [], _ => .nil
  | pid :: pids, g =>
    .node ⟨g, .ps pid .process⟩ (psFieldForest pid (fieldsLeft g) g)
      (psForest pids { g with fieldCount := 0 })

theorem fieldCount_add_one {x : Int8} (h₀ : 0 ≤ x.toInt) (h₁ : x.toInt < 4) :
    (x + 1).toInt = x.toInt + 1 := by
  rw [Int8.toInt_add, show (1 : Int8).toInt = 1 from rfl]
  exact Int.bmod_eq_of_le (by omega) (by omega)

theorem isLeafAt_psField (g : Globals) (pid : Nat) : IsLeafAt db g (.ps pid .field) := by
  refine ⟨_, rfl, ?_⟩
  rw [psNodeGettype_field]
  split_ifs <;> simp

theorem tours_psFields (node pid : Nat) (n : Nat) {g : Globals} (hpos : 0 ≤ g.fieldCount.toInt)
    (hn : g.fieldCount.toInt + n = 4) :
    Tours db junk ⟨g, .ps node .field, .ps pid .field⟩
      ⟨{ g with fieldCount := 0 }, .ps node .field, .null⟩ (psFieldForest pid n g) := by
  induction n generalizing g with
  | zero =>
    have hfour : g.fieldCount.toInt = (psCount - 1).toInt := by
      show g.fieldCount.toInt = 4
      omega
    obtain ⟨type, htype, hleaf⟩ : IsLeafAt db g (.ps pid .field) := isLeafAt_psField g pid
    exact .leaf htype hleaf (next_psField_end _ (Int8.toInt_inj.mp hfour)) (.nil rfl)
  | succ n ih =>
    have hmore : g.fieldCount ≠ psCount - 1 := by
      intro hlast
      have hfour : g.fieldCount.toInt = 4 := congrArg Int8.toInt hlast
      omega
    have hadd : (g.fieldCount + 1).toInt = g.fieldCount.toInt + 1 :=
      fieldCount_add_one hpos (by omega)
    obtain ⟨type, htype, hleaf⟩ : IsLeafAt db g (.ps pid .field) := isLeafAt_psField g pid
    refine .leaf htype hleaf (next_psField _ hmore) ?_
    exact ih (g := { g with fieldCount := g.fieldCount + 1 }) (by dsimp only; omega)
      (by dsimp only; omega)

theorem fieldsLeft_eq {g : Globals} (hnonneg : 0 ≤ g.fieldCount) (hlt : g.fieldCount < psCount) :
    0 ≤ g.fieldCount.toInt ∧ g.fieldCount.toInt + fieldsLeft g = 4 := by
  have h₀ : 0 ≤ g.fieldCount.toInt := Int8.le_iff_toInt_le.mp hnonneg
  have h₁ : g.fieldCount.toInt < 5 := Int8.lt_iff_toInt_lt.mp hlt
  refine ⟨h₀, ?_⟩
  unfold fieldsLeft
  omega

theorem tourTo_process {pid : Nat} (hlive : db.env.Live pid) {g : Globals}
    (hnonneg : 0 ≤ g.fieldCount) (hlt : g.fieldCount < psCount) :
    TourTo db junk g (.ps pid .process) { g with fieldCount := 0 }
      (psFieldForest pid (fieldsLeft g) g) := by
  obtain ⟨next, hnext, -, -⟩ := getNextPid_eq hlive.1 hlive.2.1
  obtain ⟨hpos, hleft⟩ := fieldsLeft_eq hnonneg hlt
  exact .folder rfl ⟨_, _, next_process _ hlive.2.1 hlt hnext, rfl,
    tours_psFields next pid (fieldsLeft g) hpos hleft⟩

theorem Globals.InRange.setField {g : Globals} (hg : g.InRange) :
    ({ g with fieldCount := 0 } : Globals).InRange :=
  ⟨(by decide : (0 : Int8) ≤ 0), (by decide : 0 < psCount), hg.saulFieldCount, hg.netifFieldCount⟩

theorem toursFrom_processes (n : Nat) {pid : Nat} (hpid : db.env.PidOrEnd pid)
    (hn : db.env.kernelPidLast < pid + n) {g : Globals} (hzero : g.fieldCount = 0)
    (child : DbNode) :
    ToursFrom db junk ⟨g, .ps pid .root, child⟩ g (psForest (db.env.pidsFrom pid) g) := by
  induction n generalizing pid child with
  | zero =>
    have hover : ¬ pid ≤ db.env.kernelPidLast := by omega
    obtain rfl := hpid.resolve_left fun hlive => hover hlive.2.1
    rw [pidsFrom_last]
    exact .last (next_psRoot_end child hover) rfl
  | succ n ih =>
    rcases hpid with hlive | rfl
    · obtain ⟨next, hnext, hlt, hend⟩ := getNextPid_eq hlive.1 hlive.2.1
      have hsame : { g with fieldCount := 0 } = g := by rw [← hzero]
      have hprocess : TourTo db junk g (.ps pid .process) { g with fieldCount := 0 }
          (psFieldForest pid (fieldsLeft g) g) :=
        tourTo_process hlive (by rw [hzero]; decide) (by rw [hzero]; decide)
      rw [hsame] at hprocess
      rw [pidsFrom_next hlive hnext, psForest, hsame]
      refine .child (next_psRoot child hlive.2.1 hnext) hprocess fun child' => ?_
      exact ih hend (by omega) child'
    · have hover : ¬ db.env.kernelPidLast + 1 ≤ db.env.kernelPidLast := by omega
      rw [pidsFrom_last]
      exact .last (next_psRoot_end child hover) rfl

/-- **The processes.** The first one is entered with the old `_field_count`. -/
theorem tourTo_psRoot (hfirst : db.env.FirstThread) {g : Globals} (hg : g.InRange) :
    TourTo db junk g dbNewPsNode { g with fieldCount := 0 }
      (psForest (db.env.pidsFrom kernelPidFirst) g) := by
  obtain ⟨next, hnext, hlt, hend⟩ := getNextPid_eq hfirst.1 hfirst.2.1
  refine .folder rfl ?_
  rw [pidsFrom_next hfirst hnext, psForest]
  refine .child (next_psRoot _ hfirst.2.1 hnext)
    (tourTo_process hfirst hg.fieldCount_nonneg hg.fieldCount_lt) fun child => ?_
  exact toursFrom_processes db.env.kernelPidLast hend (by omega) rfl child

/-! ## Devices -/

/-- `n` devices from the one at position `i` on. -/
def saulForest : Nat → Nat → Globals → Forest Visit
  | 0, _, _ => .nil
  | n + 1, i, g =>
    .node ⟨g, .saul (some i) .device⟩ (.leaf ⟨g, .saul (some i) .field⟩) (saulForest n (i + 1) g)

theorem tourTo_device (i : Nat) {g : Globals} (hg : g.saulFieldCount = 0) :
    TourTo db junk g (.saul (some i) .device) g (.leaf ⟨g, .saul (some i) .field⟩) := by
  refine .folder rfl (.child (next_device _ hg) (.leaf ⟨.str, rfl, by simp⟩) fun child => ?_)
  exact .last (next_saulField child hg) rfl

theorem toursFrom_devices (n : Nat) {i : Nat} (hn : i + n = db.env.saulReg.length) {g : Globals}
    (hg : g.saulFieldCount = 0) (child : DbNode) :
    ToursFrom db junk ⟨g, .saul (linkAt db.env.saulReg.length i) .root, child⟩ g
      (saulForest n i g) := by
  induction n generalizing i child with
  | zero =>
    rw [linkAt_of_le (by omega)]
    exact .last (next_saulRoot_end child) rfl
  | succ n ih =>
    rw [linkAt_of_lt (by omega)]
    refine .child (next_saulRoot child i) (tourTo_device i hg) fun child' => ?_
    exact ih (by omega) child'

theorem tourTo_saulRoot {g : Globals} (hg : g.saulFieldCount = 0) :
    TourTo db junk g (dbNewSaulNode db.env) g (saulForest db.env.saulReg.length 0 g) :=
  .folder rfl (toursFrom_devices db.env.saulReg.length (Nat.zero_add _) hg junk)

/-! ## Interfaces -/

/-- The measurements of a neighbour. -/
def qosForest (i : Nat) (g : Globals) : Forest Visit :=
  .node ⟨{ g with netifSubFieldCount := 2 }, .netif (some i) .qos⟩ .nil
    (.node ⟨{ g with netifSubFieldCount := 3 }, .netif (some i) .qos⟩ .nil
      (.leaf ⟨{ g with netifSubFieldCount := 4 }, .netif (some i) .qos⟩))

/-- The neighbours, from the one that `_num_neighbours` stands at back to the first one. -/
def neighbourForest (i : Nat) : Nat → Globals → Forest Visit
  | 0, _ => .nil
  | n + 1, g =>
    .node ⟨{ g with netifSubFieldCount := 2 }, .netif (some i) .neighbour⟩ (qosForest i g)
      (neighbourForest i n { g with numNeighbours := g.numNeighbours - 1 })

/-- The fields of an interface from the current one on, with `n` behind it. -/
def ifaceForest (env : Env) (i : Nat) : Nat → Globals → Forest Visit
  | 0, g =>
    .node ⟨g, .netif (some i) .field⟩ (neighbourForest i g.numNeighbours.toNat g) .nil
  | n + 1, g =>
    .node ⟨g, .netif (some i) .field⟩ .nil
      (ifaceForest env i n { afterValue env g (.netif (some i) .field) with
        netifFieldCount := g.netifFieldCount + 1 })

/-- The shared variables behind the last field. -/
def afterFields (env : Env) (i : Nat) : Nat → Globals → Globals
  | 0, g => { g with numNeighbours := 0 }
  | n + 1, g =>
    afterFields env i n { afterValue env g (.netif (some i) .field) with
      netifFieldCount := g.netifFieldCount + 1 }

/-- The fields of an interface behind the current one. -/
def ifaceFieldsLeft (g : Globals) : Nat := 4 - g.netifFieldCount.toNat

/-- `n` interfaces from the one at position `i` on. -/
def netifForest (env : Env) : Nat → Nat → Globals → Forest Visit
  | 0, _, _ => .nil
  | n + 1, i, g =>
    .node ⟨g, .netif (some i) .iface⟩ (ifaceForest env i (ifaceFieldsLeft g) g)
      (netifForest env n (i + 1) (afterFields env i (ifaceFieldsLeft g) g))

/-- The shared variables behind the last interface. -/
def afterIfaces (env : Env) : Nat → Nat → Globals → Globals
  | 0, _, g => g
  | n + 1, i, g => afterIfaces env n (i + 1) (afterFields env i (ifaceFieldsLeft g) g)

theorem isLeafAt_qos (i : Nat) {g : Globals} (hlast : g.netifFieldCount = 4) :
    IsLeafAt db g (.netif (some i) .qos) ∧ afterValue db.env g (.netif (some i) .qos) = g := by
  refine ⟨⟨_, rfl, ?_⟩, afterValue_of_ne (by rw [hlast]; decide) _⟩
  simp only [netifNodeGettype, hlast]
  split_ifs <;> simp_all

/-- One measurement after the other. -/
theorem tours_qos (i : Nat) {x y : UInt8} {g : Globals} {c' : Cursor} {rest : Forest Visit}
    (hlast : g.netifFieldCount = 4) (hx : x < qosCount) (hy : x + 1 = y)
    (hrest : Tours db junk ⟨{ g with netifSubFieldCount := y }, .netif (some i) .qos,
      .netif (some i) .qos⟩ c' rest) :
    Tours db junk ⟨{ g with netifSubFieldCount := x }, .netif (some i) .qos,
      .netif (some i) .qos⟩ c'
      (.node ⟨{ g with netifSubFieldCount := x }, .netif (some i) .qos⟩ .nil rest) := by
  obtain ⟨⟨type, htype, hleaf⟩, hvalue⟩ :=
    isLeafAt_qos (g := { g with netifSubFieldCount := x }) i hlast
  subst hy
  refine .leaf htype hleaf ?_ hrest
  dsimp only
  rw [hvalue]
  exact next_qos _ hx

/-- A neighbour shows its three measurements. -/
theorem tourTo_neighbour (i : Nat) {g : Globals} (hlast : g.netifFieldCount = 4)
    (hpos : g.numNeighbours ≠ 0) :
    TourTo db junk { g with netifSubFieldCount := 2 } (.netif (some i) .neighbour)
      { g with netifSubFieldCount := 5 } (qosForest i g) := by
  have hinner : dbNodeGetType db { g with netifSubFieldCount := 2 }
      (.netif (some i) .neighbour) = .ok .inner := by
    simp [dbNodeGetType, netifNodeGettype, hlast]
  have hstarted : dbNodeGetNextChild db ⟨{ g with netifSubFieldCount := 2 },
      .netif (some i) .neighbour, junk⟩ = _ :=
    next_neighbour_qos _ hpos (by simp) (show (2 : UInt8) < qosCount by decide)
  have hend : dbNodeGetNextChild db ⟨{ g with netifSubFieldCount := 4 },
      .netif (some i) .qos, .netif (some i) .qos⟩
        = .ok ⟨{ g with netifSubFieldCount := 5 }, .netif (some i) .qos, .null⟩ :=
    next_qos_end _ rfl hpos
  have hthroughput : Tours db junk ⟨{ g with netifSubFieldCount := 4 }, .netif (some i) .qos,
      .netif (some i) .qos⟩ ⟨{ g with netifSubFieldCount := 5 }, .netif (some i) .qos, .null⟩
      (.leaf ⟨{ g with netifSubFieldCount := 4 }, .netif (some i) .qos⟩) := by
    obtain ⟨⟨type, htype, hleaf⟩, hvalue⟩ :=
      isLeafAt_qos (g := { g with netifSubFieldCount := 4 }) i hlast
    refine .leaf htype hleaf ?_ (.nil rfl)
    dsimp only
    rw [hvalue]
    exact hend
  refine .folder hinner
    ⟨_, ⟨{ g with netifSubFieldCount := 5 }, .netif (some i) .qos, .null⟩, hstarted, rfl, ?_⟩
  refine tours_qos i hlast (by decide) (rfl : (2 : UInt8) + 1 = 3) ?_
  exact tours_qos i hlast (by decide) (rfl : (3 : UInt8) + 1 = 4) hthroughput

theorem numNeighbours_pred {g : Globals} {n : Nat} (hn : g.numNeighbours.toNat = n + 1) :
    g.numNeighbours ≠ 0 ∧ (g.numNeighbours - 1).toNat = n := by
  have hone : (1 : UInt8) ≤ g.numNeighbours := by
    rw [UInt8.le_iff_toNat_le]
    show 1 ≤ g.numNeighbours.toNat
    omega
  refine ⟨?_, ?_⟩
  · rintro hzero
    rw [hzero] at hn
    exact absurd hn (Nat.zero_ne_add_one n)
  · rw [UInt8.toNat_sub_of_le _ _ hone, hn]
    rfl

/-- **The neighbours** behind one that has been shown. -/
theorem toursTo_nextNeighbours (i : Nat) (n : Nat) {g : Globals} (hlast : g.netifFieldCount = 4)
    (hn : g.numNeighbours.toNat = n + 1) (child : DbNode) :
    ToursTo db junk
      ⟨{ g with netifSubFieldCount := 5 }, .netif (some i) .neighbour, child⟩
      ⟨{ g with netifSubFieldCount := 1, numNeighbours := 0 }, .netif (some i) .neighbour, .null⟩
      (neighbourForest i n { g with numNeighbours := g.numNeighbours - 1 }) := by
  induction n generalizing g child with
  | zero =>
    obtain ⟨hpos, hpred⟩ := numNeighbours_pred hn
    have hnext : dbNodeGetNextChild db ⟨{ g with netifSubFieldCount := 5 },
        .netif (some i) .neighbour, child⟩ = _ :=
      next_neighbour_next child hpos (show ¬ (5 : UInt8) < qosCount by decide)
    have hzero : g.numNeighbours - 1 = 0 := UInt8.toNat_inj.mp hpred
    rw [nextNeighbour, if_pos hzero] at hnext
    exact .last hnext rfl
  | succ n ih =>
    obtain ⟨hpos, hpred⟩ := numNeighbours_pred hn
    have hnext : dbNodeGetNextChild db ⟨{ g with netifSubFieldCount := 5 },
        .netif (some i) .neighbour, child⟩ = _ :=
      next_neighbour_next child hpos (show ¬ (5 : UInt8) < qosCount by decide)
    have hmore : ¬ g.numNeighbours - 1 = 0 := by
      rintro hzero
      rw [hzero] at hpred
      exact absurd hpred (Nat.zero_ne_add_one n)
    rw [nextNeighbour, if_neg hmore] at hnext
    refine .child hnext
      (tourTo_neighbour (g := { g with numNeighbours := g.numNeighbours - 1 }) i hlast hmore) ?_
    exact fun child' => ih (g := { g with numNeighbours := g.numNeighbours - 1 }) hlast hpred child'

/-- The folder `neighbours` where there are some. Its node is a neighbour afterwards. -/
theorem toursTo_neighbours (i : Nat) {g : Globals} (hlast : g.netifFieldCount = 4)
    (hpos : g.numNeighbours ≠ 0) (hsub : g.netifSubFieldCount = 1) (child : DbNode) :
    ToursTo db junk ⟨g, .netif (some i) .field, child⟩
      ⟨{ g with numNeighbours := 0 }, .netif (some i) .neighbour, .null⟩
      (neighbourForest i g.numNeighbours.toNat g) := by
  obtain ⟨n, hn⟩ : ∃ n, g.numNeighbours.toNat = n + 1 :=
    Nat.exists_eq_succ_of_ne_zero fun h => hpos (UInt8.toNat_inj.mp h)
  have hnext : dbNodeGetNextChild db ⟨g, .netif (some i) .field, child⟩
      = .ok ⟨{ g with netifSubFieldCount := 2 }, .netif (some i) .neighbour,
          .netif (some i) .neighbour⟩ := by
    rw [next_netifField_neighbours _ hlast hpos, hsub]
    rfl
  have hsame : { g with numNeighbours := 0 }
      = { g with netifSubFieldCount := 1, numNeighbours := 0 } := by rw [← hsub]
  rw [hn, hsame]
  refine .child hnext (tourTo_neighbour i hlast hpos) fun child => ?_
  exact toursTo_nextNeighbours i n hlast hn child

theorem type_neighbours (i : Nat) {g : Globals} (hlast : g.netifFieldCount = 4) :
    dbNodeGetType db g (.netif (some i) .field) = .ok .inner := by
  simp [dbNodeGetType, netifNodeGettype, hlast]

/-- **The folder `neighbours` of an interface.** -/
theorem tourTo_neighbours (i : Nat) {g : Globals} (hlast : g.netifFieldCount = 4)
    (hsub : g.numNeighbours ≠ 0 → g.netifSubFieldCount = 1) :
    TourTo db junk g (.netif (some i) .field) { g with numNeighbours := 0 }
      (neighbourForest i g.numNeighbours.toNat g) := by
  refine .folder (type_neighbours i hlast) ?_
  by_cases hzero : g.numNeighbours = 0
  · have hsame : { g with numNeighbours := 0 } = g := by rw [← hzero]
    rw [hsame, hzero]
    exact .last (next_netifField_end junk hlast (Or.inr hzero)) rfl
  · exact (toursTo_neighbours i hlast hzero (hsub hzero) junk).from

/-- Reading a value does not move the position among the fields. -/
theorem afterValue_frame (env : Env) (g : Globals) (node : DbNode) :
    (afterValue env g node).netifFieldCount = g.netifFieldCount ∧
      (afterValue env g node).netifSubFieldCount = g.netifSubFieldCount ∧
      (afterValue env g node).fieldCount = g.fieldCount ∧
      (afterValue env g node).saulFieldCount = g.saulFieldCount := by
  unfold afterValue
  split
  · split_ifs
    · split
      · exact foldl_countNeighbour_frame _ { g with numNeighbours := 0 }
      · exact ⟨rfl, rfl, rfl, rfl⟩
    · exact ⟨rfl, rfl, rfl, rfl⟩
  · exact ⟨rfl, rfl, rfl, rfl⟩

/-- **The fields of an interface** from the current one on. -/
theorem tours_ifaceFields (i : Nat) (node : Option Nat) (n : Nat) {g : Globals}
    (hn : g.netifFieldCount.toNat + n = 4) (hsub : g.netifSubFieldCount = 1) :
    Tours db junk ⟨g, .netif node .field, .netif (some i) .field⟩
      ⟨afterFields db.env i n g, .netif node .field, .null⟩ (ifaceForest db.env i n g) := by
  induction n generalizing g with
  | zero =>
    have hlast : g.netifFieldCount = 4 := UInt8.toNat_inj.mp hn
    have hend : ∀ child, dbNodeGetNextChild db ⟨{ g with numNeighbours := 0 }, .netif node .field,
        child⟩ = _ := fun child => next_netifField_end child hlast (Or.inr rfl)
    have hneighbours : TourTo db junk g (.netif (some i) .field) _ _ :=
      tourTo_neighbours i hlast fun _ => hsub
    rcases hneighbours with ⟨⟨type, htype, -, hleaf⟩, -⟩ | ⟨htype, c₀, c₀', hfirst, hg', hbelow⟩
    · exact absurd (Except.ok.inj (htype.symm.trans (type_neighbours i hlast))) hleaf
    · refine .folder htype hfirst hbelow ?_ (.nil rfl)
      rw [hg']
      exact hend c₀'.node
  | succ n ih =>
    obtain ⟨hcount, hsub', -, -⟩ := afterValue_frame db.env g (.netif (some i) .field)
    have hmore : g.netifFieldCount < netifCount - 1 := lt_last.mpr (by omega)
    have hleaf : IsLeafAt db g (.netif (some i) .field) := by
      have hlt : g.netifFieldCount < netifCount := lt_netifCount.mpr (by omega)
      have hne : g.netifFieldCount ≠ 4 := ne_last_of_lt hmore
      refine ⟨_, rfl, ?_⟩
      rcases netifFieldCount_cases hlt with h | h | h | h | h
      · simp [netifNodeGettype, h]
      · simp [netifNodeGettype, h]
      · simp [netifNodeGettype, h]
      · simp [netifNodeGettype, h]
      · exact absurd h hne
    obtain ⟨type, htype, hleaf⟩ := hleaf
    have hnext : dbNodeGetNextChild db
        ⟨afterValue db.env g (.netif (some i) .field), .netif node .field, .netif (some i) .field⟩
          = _ := next_netifField _ (by rw [hcount]; exact hmore)
    rw [hcount] at hnext
    refine .leaf htype hleaf hnext (ih ?_ ?_)
    · show (g.netifFieldCount + 1).toNat + n = 4
      rw [uint8_add_one (by omega)]
      omega
    · exact hsub'.trans hsub

theorem ifaceFieldsLeft_eq {g : Globals} (h : g.netifFieldCount < netifCount) :
    g.netifFieldCount.toNat + ifaceFieldsLeft g = 4 := by
  have hlt : g.netifFieldCount.toNat < 5 := h
  unfold ifaceFieldsLeft
  omega

theorem tourTo_iface (i : Nat) {g : Globals} (hcount : g.netifFieldCount < netifCount)
    (hsub : g.netifSubFieldCount = 1) :
    TourTo db junk g (.netif (some i) .iface) (afterFields db.env i (ifaceFieldsLeft g) g)
      (ifaceForest db.env i (ifaceFieldsLeft g) g) :=
  .folder rfl ⟨_, _, next_iface _ hcount, rfl,
    tours_ifaceFields i _ (ifaceFieldsLeft g) (ifaceFieldsLeft_eq hcount) hsub⟩

/-- Behind its fields an interface leaves no neighbour. -/
theorem afterFields_frame (env : Env) (i n : Nat) {g : Globals}
    (hn : g.netifFieldCount.toNat + n = 4) :
    (afterFields env i n g).netifFieldCount = 4 ∧
      (afterFields env i n g).netifSubFieldCount = g.netifSubFieldCount ∧
      (afterFields env i n g).numNeighbours = 0 ∧
      (afterFields env i n g).fieldCount = g.fieldCount ∧
      (afterFields env i n g).saulFieldCount = g.saulFieldCount := by
  induction n generalizing g with
  | zero => exact ⟨UInt8.toNat_inj.mp hn, rfl, rfl, rfl, rfl⟩
  | succ n ih =>
    obtain ⟨-, hsub, hfield, hsaul⟩ := afterValue_frame env g (.netif (some i) .field)
    have hadd : (g.netifFieldCount + 1).toNat + n = 4 := by
      rw [uint8_add_one (by omega)]
      omega
    obtain ⟨h₁, h₂, h₃, h₄, h₅⟩ := ih (g := { afterValue env g (.netif (some i) .field) with
      netifFieldCount := g.netifFieldCount + 1 }) hadd
    exact ⟨h₁, h₂.trans hsub, h₃, h₄.trans hfield, h₅.trans hsaul⟩

theorem toursFrom_ifaces (n : Nat) {i : Nat} (hn : i + n = db.env.ifaces.length) {g : Globals}
    (hcount : g.netifFieldCount < netifCount) (hsub : g.netifSubFieldCount = 1) (child : DbNode) :
    ToursFrom db junk ⟨g, .netif (linkAt db.env.ifaces.length i) .root, child⟩
      (afterIfaces db.env n i g) (netifForest db.env n i g) := by
  induction n generalizing i g child with
  | zero =>
    rw [linkAt_of_le (by omega)]
    exact .last (next_netifRoot_end child) rfl
  | succ n ih =>
    obtain ⟨hfour, hsub', -, -, -⟩ := afterFields_frame db.env i _ (ifaceFieldsLeft_eq hcount)
    rw [linkAt_of_lt (by omega)]
    refine .child (next_netifRoot child i) (tourTo_iface i hcount hsub) fun child' => ?_
    refine ih (by omega) ?_ (hsub'.trans hsub) child'
    rw [hfour]
    decide

theorem tourTo_netifRoot {g : Globals} (hcount : g.netifFieldCount < netifCount)
    (hsub : g.netifSubFieldCount = 1) :
    TourTo db junk g (.netif (db.env.netifIter none) .root)
      (afterIfaces db.env db.env.ifaces.length 0 g)
      (netifForest db.env db.env.ifaces.length 0 g) :=
  .folder rfl (toursFrom_ifaces db.env.ifaces.length (Nat.zero_add _) hcount hsub junk)

end Families

/-! ## The tables -/

section Tables

variable {cfg : Config} {env : Env} {junk : DbNode}

/-- What the dump of a node below a branch leaves, and visits below the node. -/
def dynamicDump (env : Env) (g : Globals) : DbNode → Globals × Forest Visit
  | .ps pid .root => ({ g with fieldCount := 0 }, psForest (env.pidsFrom pid) g)
  | .saul _ .root => (g, saulForest env.saulReg.length 0 g)
  | .netif _ .root =>
    (afterIfaces env env.ifaces.length 0 g, netifForest env env.ifaces.length 0 g)
  | _ => (g, .nil)

/-- The same for the children of a folder of the tables, one after the other. -/
def rowsDump (dump : Globals → DbNode → Globals × Forest Visit) :
    List TableRow → Globals → Globals × Forest Visit
  | [], g => (g, .nil)
  | row :: rows, g =>
    let (g₁, below) := dump (row.node.constructed g) row.node
    let (g₂, rest) := rowsDump dump rows g₁
    (g₂, .node ⟨row.node.constructed g, row.node⟩ below rest)

def branchDump (db : Db) (g : Globals) (node : DbNode) : Globals × Forest Visit :=
  rowsDump (dynamicDump db.env) (tableRows db node) g

/-- **What a dump leaves, and visits below the root.** -/
def rootDump (db : Db) (g : Globals) : Globals × Forest Visit :=
  rowsDump (branchDump db) (tableRows db dbGetRoot) g

/-- The way through a row, in every state in range. -/
def RowTour (db : Db) (junk : DbNode) (dump : Globals → DbNode → Globals × Forest Visit)
    (row : TableRow) : Prop :=
  ∀ g : Globals, g.InRange →
    TourTo db junk (row.node.constructed g) row.node
      (dump (row.node.constructed g) row.node).1 (dump (row.node.constructed g) row.node).2 ∧
    (dump (row.node.constructed g) row.node).1.InRange

/-- **The rows of a folder** from a position on. -/
theorem toursFrom_rows {node : DbNode} (hn : TableNode (.ofEnv cfg env) node)
    {dump : Globals → DbNode → Globals × Forest Visit}
    (hrows : ∀ row ∈ tableRows (.ofEnv cfg env) node, RowTour (.ofEnv cfg env) junk dump row)
    (rows : List TableRow) {k : UInt8} (hk : (tableRows (.ofEnv cfg env) node).drop k.toNat = rows)
    {g : Globals} (hg : g.InRange) (child : DbNode) :
    ToursFrom (.ofEnv cfg env) junk ⟨g, node.withPos k, child⟩ (rowsDump dump rows g).1
        (rowsDump dump rows g).2 ∧
      (rowsDump dump rows g).1.InRange := by
  have hlen := length_tableRows_le hn
  induction rows generalizing k g child with
  | nil =>
    have hend : (tableRows (.ofEnv cfg env) node).length ≤ k.toNat := List.drop_eq_nil_iff.mp hk
    exact ⟨.last (getNextChild_end hn hend g child) rfl, hg⟩
  | cons row rows ih =>
    have hrow : (tableRows (.ofEnv cfg env) node)[k.toNat]? = some row := by
      have h := congrArg (·[0]?) hk
      simpa using h
    have hlt : k.toNat < (tableRows (.ofEnv cfg env) node).length :=
      (List.getElem?_eq_some_iff.mp hrow).1
    have hk' : (k + 1).toNat = k.toNat + 1 := uint8_add_one (by omega)
    have hrest : (tableRows (.ofEnv cfg env) node).drop (k + 1).toNat = rows := by
      rw [hk', ← List.drop_drop, hk]
      rfl
    obtain ⟨htour, hrange⟩ := hrows row (List.mem_of_getElem? hrow) g hg
    refine ⟨.child (getNextChild_row_eq hn hrow g child) htour fun child' => ?_, ?_⟩
    · exact (ih hrest hrange child').1
    · exact (ih hrest hrange child).2

theorem afterIfaces_inRange (n : Nat) {i : Nat} {g : Globals} (hg : g.InRange) :
    (afterIfaces env n i g).InRange := by
  induction n generalizing i g with
  | zero => exact hg
  | succ n ih =>
    obtain ⟨hfour, -, -, hfield, hsaul⟩ :=
      afterFields_frame env i _ (ifaceFieldsLeft_eq hg.netifFieldCount)
    refine ih ⟨?_, ?_, hsaul.trans hg.saulFieldCount, ?_⟩
    · rw [hfield]
      exact hg.fieldCount_nonneg
    · rw [hfield]
      exact hg.fieldCount_lt
    · rw [hfour]
      decide

/-- The entries of a branch. Only the processes need one in the first slot. -/
theorem rowTour_entry {flIdx : UInt8} {e : DbFlEntry} (he : (dbIndex cfg)[flIdx.toNat]? = some e)
    {row : TableRow} (hrow : row ∈ e.rows env flIdx)
    (hfirst : row.node = dbNewPsNode → env.FirstThread) :
    RowTour (.ofEnv cfg env) junk (dynamicDump env) row := by
  intro g hg
  rcases entry_of_row he hrow with ⟨subIdx, s, hs, rfl⟩ | ⟨⟨name, getNodeFn⟩, -, rfl⟩
  · refine ⟨.leaf ⟨s.type, static_type he hs g, ?_⟩, hg⟩
    rcases typed_ofEnv (List.mem_of_getElem? he) (List.mem_of_getElem? hs) with ht | ht | ht <;>
      simp [ht.1]
  · cases getNodeFn with
    | dbNewPsNode => exact ⟨tourTo_psRoot (hfirst rfl) hg, hg.setField⟩
    | dbNewSaulNode => exact ⟨tourTo_saulRoot hg.saulFieldCount, hg⟩
    | dbNewNetifNode =>
      have hnew : ({ g with netifFieldCount := 0, netifSubFieldCount := 1 } : Globals).InRange :=
        ⟨hg.fieldCount_nonneg, hg.fieldCount_lt, hg.saulFieldCount, (by decide : 0 < netifCount)⟩
      exact ⟨tourTo_netifRoot hnew.netifFieldCount rfl, afterIfaces_inRange _ hnew⟩

theorem rowTours_entries (hfirst : env.FirstThread) {flIdx : UInt8} {e : DbFlEntry}
    (he : (dbIndex cfg)[flIdx.toNat]? = some e) :
    ∀ row ∈ tableRows (.ofEnv cfg env) (dbNewFlNode flIdx),
      RowTour (.ofEnv cfg env) junk (dynamicDump env) row := by
  rw [tableRows_branch he]
  exact fun row hrow => rowTour_entry he hrow fun _ => hfirst

/-- The branches. -/
theorem rowTour_branch (hfirst : env.FirstThread) {row : TableRow}
    (hrow : row ∈ tableRows (.ofEnv cfg env) dbGetRoot) :
    RowTour (.ofEnv cfg env) junk (branchDump (.ofEnv cfg env)) row := by
  intro g hg
  obtain ⟨flIdx, e, he, rfl⟩ := branch_of_row hrow
  have hn : TableNode (.ofEnv cfg env) (dbNewFlNode flIdx) := .branch 0 he
  have hrows : ∀ row ∈ tableRows (.ofEnv cfg env) (dbNewFlNode flIdx),
      RowTour (.ofEnv cfg env) junk (dynamicDump env) row := rowTours_entries hfirst he
  have hfrom := toursFrom_rows hn hrows _ (k := 0) rfl hg junk
  exact ⟨.folder rfl hfrom.1, hfrom.2⟩

/-- **The way through the database.** -/
theorem tourTo_root (hfirst : env.FirstThread) {g : Globals} (hg : g.InRange) :
    TourTo (.ofEnv cfg env) junk g dbGetRoot (rootDump (.ofEnv cfg env) g).1
        (rootDump (.ofEnv cfg env) g).2 ∧
      (rootDump (.ofEnv cfg env) g).1.InRange := by
  have hn : TableNode (.ofEnv cfg env) dbGetRoot := .root 0
  have hrows : ∀ row ∈ tableRows (.ofEnv cfg env) dbGetRoot,
      RowTour (.ofEnv cfg env) junk (branchDump (.ofEnv cfg env)) row :=
    fun row hrow => rowTour_branch hfirst hrow
  have hfrom := toursFrom_rows hn hrows _ (k := 0) rfl hg junk
  exact ⟨.folder rfl hfrom.1, hfrom.2⟩

end Tables

end Dca
