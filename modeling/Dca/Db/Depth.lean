import Mathlib.Logic.Relation
import Dca.Db.Ways

/-!
# How deep a dump goes

`_tree_r` calls itself for each child. A traversal bounds the depth of its calls by the levels of
its forest (`Tours.shallow`), whether or not they come back: a dump that is stopped by a trap has
made calls until then. Where slot `KERNEL_PID_FIRST` is empty there is no traversal of the processes.
There `_tree_r` asks for the name of the first one and does not come back.
-/

namespace Dca

open CLib

/-! ## Calls -/

/-- A call of `_tree_r`, or a turn of its loop over the children. -/
inductive TreeCall where
  | tree (fuel depth : Nat) (g : Globals) (node : DbNode)
  | children (fuel depth : Nat) (c : Cursor)

/-- The parameter `depth`. -/
def TreeCall.depth : TreeCall → Nat
  | tree _ depth _ _ | children _ depth _ => depth

section Calls

variable (db : Db) (stack : Stack)

/-- The calls in `treeR` and `treeChildren`, each made when those in front of it have come back. -/
inductive MakesCall : TreeCall → TreeCall → Prop where
  | loop {fuel depth : Nat} {g : Globals} {node : DbNode} {name : CString} {c : Cursor}
      (hname : printNodeName db stack g node = .ok name)
      (htype : dbNodeGetType db g node = .ok .inner)
      (hnext : dbNodeGetNextChild db ⟨g, node, stack.node⟩ = .ok c) :
      MakesCall (.tree (fuel + 1) depth g node) (.children fuel depth c)
  | child {fuel depth : Nat} {c : Cursor} (hnull : dbNodeIsNull db c.g c.child = .ok false) :
      MakesCall (.children (fuel + 1) depth c) (.tree fuel (depth + 1) c.g c.child)
  | next {fuel depth : Nat} {c c' : Cursor} {r : Globals × DbNode × List Printed}
      (hnull : dbNodeIsNull db c.g c.child = .ok false)
      (hchild : treeR db stack fuel (depth + 1) c.g c.child = .ok r)
      (hnext : dbNodeGetNextChild db ⟨r.1, c.node, r.2.1⟩ = .ok c') :
      MakesCall (.children (fuel + 1) depth c) (.children fuel depth c')

/-- The calls that a call comes to make, and those that these make. -/
def ComesToCall : TreeCall → TreeCall → Prop := Relation.ReflTransGen (MakesCall db stack)

/-- No call from here on is more than `k` levels further down. -/
def Shallow (k : Nat) (x : TreeCall) : Prop := ∀ y, ComesToCall db stack x y → y.depth ≤ x.depth + k

variable {db stack} {k : Nat}

theorem Shallow.of_calls {x : TreeCall}
    (h : ∀ y, MakesCall db stack x y → ∃ j, Shallow db stack j y ∧ y.depth + j ≤ x.depth + k) :
    Shallow db stack k x := by
  intro y hy
  rcases hy.cases_head with rfl | ⟨z, hz, hzy⟩
  · exact Nat.le_add_right _ _
  · obtain ⟨j, hj, hle⟩ := h z hz
    exact (hj y hzy).trans hle

theorem Shallow.mono {j : Nat} {x : TreeCall} (h : Shallow db stack j x) (hle : j ≤ k) :
    Shallow db stack k x :=
  fun y hy => (h y hy).trans (Nat.add_le_add_left hle _)

/-- The calls of `_tree_r` for a node. -/
theorem Shallow.tree {fuel depth : Nat} {g : Globals} {node : DbNode}
    (h : ∀ n c name, printNodeName db stack g node = .ok name →
      dbNodeGetType db g node = .ok .inner → dbNodeGetNextChild db ⟨g, node, stack.node⟩ = .ok c →
      Shallow db stack k (.children n depth c)) : Shallow db stack k (.tree fuel depth g node) := by
  refine .of_calls fun y hy => ?_
  cases hy with
  | loop hname htype hnext => exact ⟨k, h _ _ _ hname htype hnext, Nat.le_refl _⟩

/-- The calls of its loop: one for the child, and what comes behind it. -/
theorem Shallow.children {fuel depth : Nat} {c : Cursor}
    (hchild : dbNodeIsNull db c.g c.child = .ok false →
      ∀ n, Shallow db stack k (.tree n (depth + 1) c.g c.child))
    (hrest : dbNodeIsNull db c.g c.child = .ok false → ∀ n r c',
      treeR db stack n (depth + 1) c.g c.child = .ok r →
      dbNodeGetNextChild db ⟨r.1, c.node, r.2.1⟩ = .ok c' →
      Shallow db stack (k + 1) (.children n depth c')) :
    Shallow db stack (k + 1) (.children fuel depth c) := by
  refine .of_calls fun y hy => ?_
  cases hy with
  | child hnull =>
    refine ⟨k, hchild hnull _, ?_⟩
    simp only [TreeCall.depth]
    omega
  | next hnull htree hnext => exact ⟨k + 1, hrest hnull _ _ _ htree hnext, Nat.le_refl _⟩

/-- **What is printed belongs to a call** of its depth. -/
theorem comesToCall_printed (fuel : Nat) :
    (∀ depth g node r, treeR db stack fuel depth g node = .ok r → ∀ p ∈ r.2.2, ∃ n g' node',
      ComesToCall db stack (.tree fuel depth g node) (.tree n p.depth g' node')) ∧
    ∀ depth c r, treeChildren db stack fuel depth c = .ok r → ∀ p ∈ r.2, ∃ n g' node',
      ComesToCall db stack (.children fuel depth c) (.tree n p.depth g' node') := by
  induction fuel with
  | zero =>
    refine ⟨fun depth g node r h => ?_, fun depth c r h => ?_⟩
    · simp [treeR] at h
    · simp [treeChildren] at h
  | succ fuel ih =>
    obtain ⟨ihTree, ihChildren⟩ := ih
    refine ⟨fun depth g node r h p hp => ?_, fun depth c r h p hp => ?_⟩
    · have hself : ComesToCall db stack (.tree (fuel + 1) depth g node)
          (.tree (fuel + 1) depth g node) := .refl
      rw [treeR] at h
      obtain ⟨name, hname, h⟩ := bind_eq_ok.mp h
      obtain ⟨type, htype, h⟩ := bind_eq_ok.mp h
      cases type with
      | null =>
        obtain rfl := Except.ok.inj h
        obtain rfl := List.mem_singleton.mp hp
        exact ⟨_, _, _, hself⟩
      | inner =>
        obtain ⟨c, hc, h⟩ := bind_eq_ok.mp h
        obtain ⟨⟨c', out⟩, hchildren, h⟩ := bind_eq_ok.mp h
        obtain rfl := Except.ok.inj h
        rcases List.mem_cons.mp hp with rfl | hp
        · exact ⟨_, _, _, hself⟩
        · obtain ⟨n, g', node', hcalls⟩ := ihChildren _ _ _ hchildren p hp
          exact ⟨n, g', node', .head (.loop hname htype hc) hcalls⟩
      | int | float | str =>
        obtain ⟨⟨g₁, text⟩, -, h⟩ := bind_eq_ok.mp h
        obtain rfl := Except.ok.inj h
        obtain rfl := List.mem_singleton.mp hp
        exact ⟨_, _, _, hself⟩
    · rw [treeChildren] at h
      obtain ⟨isNull, hnull, h⟩ := bind_eq_ok.mp h
      cases isNull with
      | true =>
        obtain rfl := Except.ok.inj h
        cases hp
      | false =>
        obtain ⟨⟨g₁, child, first⟩, htree, h⟩ := bind_eq_ok.mp h
        obtain ⟨c', hc', h⟩ := bind_eq_ok.mp h
        obtain ⟨⟨c'', rest⟩, hrest, h⟩ := bind_eq_ok.mp h
        obtain rfl := Except.ok.inj h
        rcases List.mem_append.mp hp with hp | hp
        · obtain ⟨n, g', node', hcalls⟩ := ihTree _ _ _ _ htree p hp
          exact ⟨n, g', node', .head (.child hnull) hcalls⟩
        · obtain ⟨n, g', node', hcalls⟩ := ihChildren _ _ _ hrest p hp
          exact ⟨n, g', node', .head (.next hnull htree hc') hcalls⟩

end Calls

/-! ## Along a traversal -/

section Along

variable {db : Db} {stack : Stack}

/-- What the call for a leaf leaves. -/
theorem leaf_result {g : Globals} {node : DbNode} {type : DbNodeType}
    (htype : dbNodeGetType db g node = .ok type) (hleaf : type ≠ .null ∧ type ≠ .inner)
    {fuel depth : Nat} {r : Globals × DbNode × List Printed}
    (hr : treeR db stack fuel depth g node = .ok r) :
    r.1 = afterValue db.env g node ∧ r.2.1 = node := by
  have hends : Ends (fun _ => True) _ fun fuel => treeR db stack fuel depth g node :=
    ends_leaf htype hleaf (by cases Visit.print db stack depth ⟨g, node⟩ <;> trivial)
  obtain ⟨hg, hnode, -⟩ := hends.of_eq_ok (fun n r => (tree_mono n).1 _ _ _ r) hr
  exact ⟨hg, hnode⟩

/-- What the call for a folder leaves. -/
theorem folder_result {g : Globals} {node : DbNode} {c c' : Cursor} {below : Forest Visit}
    (htype : dbNodeGetType db g node = .ok .inner)
    (hfirst : dbNodeGetNextChild db ⟨g, node, stack.node⟩ = .ok c)
    (hbelow : Tours db stack.node c c' below) {fuel depth : Nat}
    {r : Globals × DbNode × List Printed} (hr : treeR db stack fuel depth g node = .ok r) :
    r.1 = c'.g ∧ r.2.1 = c'.node := by
  have hany : ∀ {α : Type} (x : Res α), Outcome (fun _ => True) (fun _ => True) x := by
    rintro α (x | x) <;> trivial
  have hends : Ends (fun _ => True) _ fun fuel => treeR db stack fuel depth g node :=
    ends_folder htype hfirst (hany _) (hbelow.ends fun x _ => hany _)
  obtain ⟨hg, hnode, -⟩ := hends.of_eq_ok (fun n r => (tree_mono n).1 _ _ _ r) hr
  exact ⟨hg, hnode⟩

/-- A leaf makes no calls. -/
theorem shallow_leaf {g : Globals} {node : DbNode} {type : DbNodeType}
    (htype : dbNodeGetType db g node = .ok type) (hleaf : type ≠ .inner) (k fuel depth : Nat) :
    Shallow db stack k (.tree fuel depth g node) :=
  .tree fun _ _ _ _ htype' _ => absurd (Except.ok.inj (htype.symm.trans htype')) hleaf

/-- Behind the last child there are no calls. -/
theorem shallow_end {c : Cursor} (hnull : c.child = .null) (k fuel depth : Nat) :
    Shallow db stack k (.children fuel depth c) := by
  have hisNull : dbNodeIsNull db c.g c.child = .ok true := by
    rw [hnull]
    rfl
  refine .of_calls fun y hy => ?_
  cases hy with
  | child hnull' => cases hisNull.symm.trans hnull'
  | next hnull' _ _ => cases hisNull.symm.trans hnull'

/-- **The calls of a traversal** go down as many levels as there are in its forest. -/
theorem Tours.shallow {c c' : Cursor} {forest : Forest Visit}
    (h : Tours db stack.node c c' forest) {k : Nat} (hk : forest.height ≤ k) (fuel depth : Nat) :
    Shallow db stack k (.children fuel depth c) := by
  induction h generalizing k fuel depth with
  | nil hnull => exact shallow_end hnull k fuel depth
  | @leaf c c₁ c' type rest htype hleaf hnext _ ih =>
    rw [Forest.height, max_le_iff] at hk
    obtain ⟨k, rfl⟩ := Nat.exists_eq_add_of_le' (Nat.le_of_add_left_le hk.1)
    refine .children (fun _ n => shallow_leaf htype hleaf.2 k n _) fun _ n r c₂ htree hnext' => ?_
    obtain ⟨hg, hnode⟩ := leaf_result htype hleaf htree
    rw [hg, hnode, hnext] at hnext'
    obtain rfl := Except.ok.inj hnext'
    exact ih hk.2 n depth
  | @folder c c₀ c₀' c₁ c' below rest htype hfirst hbelow hnext _ ihBelow ihRest =>
    rw [Forest.height, max_le_iff] at hk
    obtain ⟨k, rfl⟩ := Nat.exists_eq_add_of_le' (Nat.le_of_add_left_le hk.1)
    refine .children (fun _ n => .tree fun m c₂ _ _ _ hfirst' => ?_) fun _ n r c₂ htree hnext' => ?_
    · obtain rfl := Except.ok.inj (hfirst.symm.trans hfirst')
      exact ihBelow (Nat.le_of_succ_le_succ hk.1) m _
    · obtain ⟨hg, hnode⟩ := folder_result htype hfirst hbelow htree
      rw [hg, hnode, hnext] at hnext'
      obtain rfl := Except.ok.inj hnext'
      exact ihRest hk.2 n depth

theorem TourTo.shallow {g g' : Globals} {node : DbNode} {below : Forest Visit}
    (h : TourTo db stack.node g node g' below) {k : Nat} (hk : below.height ≤ k)
    (fuel depth : Nat) : Shallow db stack k (.tree fuel depth g node) := by
  rcases h with ⟨⟨type, htype, -, hleaf⟩, -⟩ | ⟨htype, c, c', hfirst, -, htours⟩
  · exact shallow_leaf htype hleaf k fuel depth
  · refine .tree fun n c₁ _ _ _ hfirst' => ?_
    obtain rfl := Except.ok.inj (hfirst.symm.trans hfirst')
    exact htours.shallow hk n depth

end Along

/-! ## Levels -/

theorem height_psFieldForest (pid n : Nat) (g : Globals) :
    (psFieldForest pid n g).height ≤ 1 := by
  induction n generalizing g with
  | zero => simp [psFieldForest, Forest.leaf, Forest.height]
  | succ n ih =>
    rw [psFieldForest, Forest.height]
    exact max_le (by simp [Forest.height]) (ih _)

theorem height_psForest (pids : List Nat) (g : Globals) : (psForest pids g).height ≤ 2 := by
  induction pids generalizing g with
  | nil => simp [psForest, Forest.height]
  | cons pid pids ih =>
    rw [psForest, Forest.height]
    exact max_le (Nat.succ_le_succ (height_psFieldForest pid _ g)) (ih _)

theorem height_saulForest (n i : Nat) (g : Globals) : (saulForest n i g).height ≤ 2 := by
  induction n generalizing i with
  | zero => simp [saulForest, Forest.height]
  | succ n ih =>
    rw [saulForest, Forest.height]
    exact max_le (by simp [Forest.leaf, Forest.height]) (ih _)

theorem height_neighbourForest (i n : Nat) (g : Globals) :
    (neighbourForest i n g).height ≤ 2 := by
  induction n generalizing g with
  | zero => simp [neighbourForest, Forest.height]
  | succ n ih =>
    rw [neighbourForest, Forest.height]
    exact max_le (by simp [qosForest, Forest.leaf, Forest.height]) (ih _)

theorem height_ifaceForest (env : Env) (i n : Nat) (g : Globals) :
    (ifaceForest env i n g).height ≤ 3 := by
  induction n generalizing g with
  | zero =>
    rw [ifaceForest, Forest.height]
    exact max_le (Nat.succ_le_succ (height_neighbourForest i _ g)) (Nat.zero_le _)
  | succ n ih =>
    rw [ifaceForest, Forest.height]
    exact max_le (by simp [Forest.height]) (ih _)

theorem height_netifForest (env : Env) (n i : Nat) (g : Globals) :
    (netifForest env n i g).height ≤ 4 := by
  induction n generalizing i g with
  | zero => simp [netifForest, Forest.height]
  | succ n ih =>
    rw [netifForest, Forest.height]
    exact max_le (Nat.succ_le_succ (height_ifaceForest env i _ g)) (ih _ _)

theorem height_dynamicDump (env : Env) (g : Globals) (node : DbNode) :
    (dynamicDump env g node).2.height ≤ 4 := by
  unfold dynamicDump
  split
  · exact Nat.le_trans (height_psForest _ g) (by decide)
  · exact Nat.le_trans (height_saulForest _ _ g) (by decide)
  · exact height_netifForest env _ _ g
  · exact Nat.zero_le _

section Levels

variable {cfg : Config} {env : Env} {stack : Stack}

/-- Without a thread in the first slot there is no name of the first process. -/
theorem no_firstName {db : Db} (hlast : kernelPidFirst ≤ db.env.kernelPidLast)
    (hfirst : ¬ db.env.FirstThread) (g : Globals) (name : CString) :
    printNodeName db stack g (.ps kernelPidFirst .process) ≠ .ok name := by
  have hnone : db.env.schedThreads kernelPidFirst = none := by
    cases hthread : db.env.schedThreads kernelPidFirst with
    | none => rfl
    | some p => exact absurd ⟨Nat.le_refl _, hlast, by rw [hthread]; rfl⟩ hfirst
  have hlive : liveThread db.env kernelPidFirst = .error .assert := by
    rw [liveThread, Env.thread, if_pos hlast, hnone]
    rfl
  intro hname
  obtain ⟨b, hb, -⟩ := bind_eq_ok.mp hname
  have hb' : psNodeGetname db.env g kernelPidFirst .process stack.name = .ok b := hb
  simp only [psNodeGetname, hlast, decide_true, assert_true, ok_bind, hlive, error_bind] at hb'
  cases hb'

/-- The processes without one in the first slot. -/
theorem shallow_psRoot {db : Db} (hfirst : ¬ db.env.FirstThread) (g : Globals) (fuel depth : Nat) :
    Shallow db stack 1 (.tree fuel depth g dbNewPsNode) := by
  refine .tree fun n c _ _ _ hnext => ?_
  by_cases hlast : kernelPidFirst ≤ db.env.kernelPidLast
  · obtain ⟨next, hpid, -⟩ := getNextPid_eq (Nat.le_refl _) hlast
    obtain rfl := Except.ok.inj ((next_psRoot stack.node hlast hpid).symm.trans hnext)
    refine .children (fun _ m => .tree fun _ _ name hname _ _ => ?_) fun _ m r c' htree _ => ?_
    · exact absurd hname (no_firstName hlast hfirst g name)
    · cases m with
      | zero => cases htree
      | succ m =>
        rw [treeR] at htree
        obtain ⟨name, hname, -⟩ := bind_eq_ok.mp htree
        exact absurd hname (no_firstName hlast hfirst g name)
  · obtain rfl := Except.ok.inj ((next_psRoot_end stack.node hlast).symm.trans hnext)
    exact shallow_end rfl 1 n depth

/-- An entry of a branch. -/
theorem shallow_entry {flIdx : UInt8} {e : DbFlEntry}
    (he : (dbIndex cfg)[flIdx.toNat]? = some e) {row : TableRow} (hrow : row ∈ e.rows env flIdx)
    {g : Globals} (hg : g.InRange) (fuel depth : Nat) :
    Shallow (.ofEnv cfg env) stack 4 (.tree fuel depth (row.node.constructed g) row.node) := by
  by_cases hps : row.node = dbNewPsNode → env.FirstThread
  · have htour : TourTo (.ofEnv cfg env) stack.node _ row.node _ _ :=
      (rowTour_entry he hrow hps g hg).1
    exact htour.shallow (height_dynamicDump env _ _) fuel depth
  · obtain ⟨hnode, hfirst⟩ := Classical.not_imp.mp hps
    rw [hnode]
    exact (shallow_psRoot hfirst _ fuel depth).mono (by decide)

/-- **The children of a folder of the tables**, from a position on. -/
theorem shallow_rows {node : DbNode} (hn : TableNode (.ofEnv cfg env) node) {k : Nat}
    (hrows : ∀ row ∈ tableRows (.ofEnv cfg env) node, ∀ g : Globals, g.InRange → ∀ fuel depth,
      Shallow (.ofEnv cfg env) stack k (.tree fuel depth (row.node.constructed g) row.node))
    (rows : List TableRow) {i : UInt8}
    (hi : (tableRows (.ofEnv cfg env) node).drop i.toNat = rows) {g : Globals} (hg : g.InRange)
    {child : DbNode} {c : Cursor}
    (hnext : dbNodeGetNextChild (.ofEnv cfg env) ⟨g, node.withPos i, child⟩ = .ok c)
    (fuel depth : Nat) : Shallow (.ofEnv cfg env) stack (k + 1) (.children fuel depth c) := by
  have hlen := length_tableRows_le hn
  have hkeeps := (keeps_inRange (dbIndex cfg)).calls env
  induction rows generalizing i g child c fuel depth with
  | nil =>
    have hend : (tableRows (.ofEnv cfg env) node).length ≤ i.toNat := List.drop_eq_nil_iff.mp hi
    obtain rfl := Except.ok.inj ((getNextChild_end hn hend g child).symm.trans hnext)
    exact shallow_end rfl _ fuel depth
  | cons row rows ih =>
    have hrow : (tableRows (.ofEnv cfg env) node)[i.toNat]? = some row := by
      have h := congrArg (·[0]?) hi
      simpa using h
    have hlt : i.toNat < (tableRows (.ofEnv cfg env) node).length :=
      (List.getElem?_eq_some_iff.mp hrow).1
    have hrest : (tableRows (.ofEnv cfg env) node).drop (i + 1).toNat = rows := by
      rw [uint8_add_one (by omega), ← List.drop_drop, hi]
      rfl
    have hc : c.g.InRange := hkeeps.child (childStep_of_ok hnext) hg
    obtain rfl := Except.ok.inj ((getNextChild_row_eq hn hrow g child).symm.trans hnext)
    refine .children (fun _ n => hrows row (List.mem_of_getElem? hrow) g hg n _) ?_
    intro _ n r c' htree hnext'
    exact ih hrest ((hkeeps.tree n).1 htree hc) hnext' n depth

theorem shallow_branch {row : TableRow} (hrow : row ∈ tableRows (.ofEnv cfg env) dbGetRoot)
    {g : Globals} (hg : g.InRange) (fuel depth : Nat) :
    Shallow (.ofEnv cfg env) stack 5 (.tree fuel depth (row.node.constructed g) row.node) := by
  obtain ⟨flIdx, e, he, rfl⟩ := branch_of_row hrow
  have hn : TableNode (.ofEnv cfg env) (dbNewFlNode flIdx) := .branch 0 he
  refine .tree fun n c _ _ _ hnext => shallow_rows hn ?_ _ (i := 0) rfl hg hnext n depth
  rw [tableRows_branch he]
  exact fun row hrow g hg fuel depth => shallow_entry he hrow hg fuel depth

theorem shallow_root {g : Globals} (hg : g.InRange) (fuel depth : Nat) :
    Shallow (.ofEnv cfg env) stack 6 (.tree fuel depth g dbGetRoot) := by
  have hn : TableNode (.ofEnv cfg env) dbGetRoot := .root 0
  refine .tree fun n c _ _ _ hnext => shallow_rows hn ?_ _ (i := 0) rfl hg hnext n depth
  exact fun row hrow g hg => shallow_branch hrow hg

/--
**A dump goes down six levels**, whatever there is to show and however it ends: no call of `_tree_r`
that it comes to make has a larger `depth`, so this fits the `int8_t`, and none is printed.
-/
theorem dump_depth (cfg : Config) (env : Env) (stack : Stack) (fuel : Nat) {g : Globals}
    (hg : g.InRange) :
    (∀ found,
      dbFindNodeByPath (.ofEnv cfg env) fuel g (.lit "/") stack.node stack.name = .ok found →
      ∀ n depth g' node, ComesToCall (.ofEnv cfg env) stack (.tree fuel 0 found.g found.node)
        (.tree n depth g' node) → depth ≤ 6) ∧
    ∀ g' out, dcadump (.ofEnv cfg env) stack fuel g = .ok (g', out) → ∀ p ∈ out, p.depth ≤ 6 := by
  have hcalls : ∀ n depth g' node, ComesToCall (.ofEnv cfg env) stack (.tree fuel 0 g dbGetRoot)
      (.tree n depth g' node) → depth ≤ 6 := by
    intro n depth g' node h
    simpa [TreeCall.depth] using shallow_root hg fuel 0 _ h
  refine ⟨fun found hfound => ?_, fun g' out hdump p hp => ?_⟩
  · rw [find_root] at hfound
    obtain rfl := Except.ok.inj hfound
    exact hcalls
  · have hcode : ¬ (0 : Int) < 0 := by decide
    simp only [dcadump, find_root, ok_bind, if_neg hcode] at hdump
    obtain ⟨r, htree, hr⟩ := bind_eq_ok.mp hdump
    obtain ⟨-, rfl⟩ := Prod.mk.inj (Except.ok.inj hr)
    obtain ⟨n, g'', node, hcall⟩ := (comesToCall_printed fuel).1 _ _ _ _ htree p hp
    exact hcalls n p.depth g'' node hcall

/-- The measurements of a neighbour are on the sixth level. Without a thread, a dump is stopped by the
assertion at the name of the first process. -/
theorem dump_depth_small :
    (∃ g' out, dcadump smallDb emptyStack 60 {} = .ok (g', out) ∧ (∀ p ∈ out, p.depth ≤ 6) ∧
      ∃ p ∈ out, p.depth = 6) ∧
    dcadump (.ofEnv {} { smallEnv with schedThreads := fun _ => none }) emptyStack 60 {}
      = .error .assert ∧
    ∀ n depth g' node, ComesToCall (.ofEnv {} { smallEnv with schedThreads := fun _ => none })
      emptyStack (.tree 60 0 {} dbGetRoot) (.tree n depth g' node) → depth ≤ 6 := by
  have hrange : Globals.InRange {} := ⟨by decide, by decide, by decide, by decide⟩
  refine ⟨?_, by decide +kernel, ?_⟩
  · have hrun : ∃ r, dcadump smallDb emptyStack 60 {} = .ok r ∧ ∃ p ∈ r.2, p.depth = 6 :=
      exists_ok_of_any (by decide +kernel)
    obtain ⟨⟨g', out⟩, hdump, hdeep⟩ := hrun
    exact ⟨g', out, hdump, (dump_depth {} smallEnv emptyStack 60 hrange).2 g' out hdump, hdeep⟩
  · exact (dump_depth {} { smallEnv with schedThreads := fun _ => none } emptyStack 60 hrange).1 _
      (find_root _ _ _ _ _)

end Levels

end Dca
