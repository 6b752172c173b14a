import Dca.Db.Steps
import Dca.Lib.Run
import Dca.Neighbour.Store

/-!
# Calls of the database in any order

The shell, the CoAP server and the file system call the node operations on variables of their own
while the kernel changes its tables and the measurements store their results. `System.step` is one
call or one such event. Lookups and dumps are sequences of calls, so a run of the system is any
interleaving of them.
-/

namespace Dca

open CLib

/-- A call of a node operation, or an event beside it. Variables of type `db_node_t` are numbered. -/
inductive Call where
  /-- A variable comes into scope. It holds whatever was in its place. -/
  | declare (i : Nat) (junk : DbNode)
  /-- `db_get_root(&i)` -/
  | getRoot (i : Nat)
  /-- `j = i` -/
  | copy (i j : Nat)
  /-- `db_node_get_next_child(&i, &j)` -/
  | getNextChild (i j : Nat) (distinct : i ≠ j)
  /-- `db_node_get_name(&i, name)` -/
  | getName (i : Nat) (name : NameBuf)
  /-- `db_node_get_int_value(&i)` -/
  | getIntValue (i : Nat)
  /-- `db_node_value_to_str(&i, buf, n)` -/
  | valueToStr (i n : Nat) (buf : Buf n)
  /-- Threads, devices, interfaces or neighbour caches have changed. -/
  | kernel (env : Env)
  /-- A measurement stores its result. -/
  | store (op : StatOp)

/-- The kernel, the shared variables and the variables of the callers. -/
structure System where
  env : Env
  g : Globals
  vars : Nat → DbNode

namespace System

/-- The system before the first call. -/
def boot (env : Env) : System := ⟨env, .boot [], fun _ => .null⟩

/-- `i = node` -/
def assign (s : System) (i : Nat) (node : DbNode) : System :=
  { s with vars := fun k => if k = i then node else s.vars k }

/-- What a call with the output variable `j` on the variable `i` leaves. -/
def put (s : System) (i j : Nat) (c : Cursor) : System :=
  ({ s with g := c.g }.assign i c.node).assign j c.child

variable (index : List DbFlEntry)

/-- The database as it is now. -/
def db (s : System) : Db := ⟨s.env, index⟩

/-- What a call does. -/
def exec (s : System) : Call → Res System
  | .declare i junk => .ok (s.assign i junk)
  | .getRoot i => .ok (s.assign i dbGetRoot)
  | .copy i j => .ok (s.assign j (s.vars i))
  | .getNextChild i j _ => do
    let c ← dbNodeGetNextChild (s.db index) ⟨s.g, s.vars i, s.vars j⟩
    return s.put i j c
  | .getName i name => do
    let _ ← dbNodeGetName (s.db index) s.g (s.vars i) name
    return s
  | .getIntValue i => do
    let (g, _) ← dbNodeGetIntValue (s.db index) s.g (s.vars i)
    return { s with g }
  | .valueToStr i _ buf => do
    let (g, _) ← dbNodeValueToStr (s.db index) s.g (s.vars i) buf
    return { s with g }
  | .kernel env => .ok { s with env }
  | .store op => .ok { s with g := { s.g with neighbours := op.apply s.g.neighbours } }

/-- One call that comes back, or one event. -/
def step (s : System) (call : Call) : Option System := (s.exec index call).toOption

variable {index}

theorem step_eq_some {s t : System} {call : Call} :
    s.step index call = some t ↔ s.exec index call = .ok t := toOption_eq_some

/-! ## What all calls keep -/

/-- A property of the shared variables that calls keep in every kernel state, and measurements. -/
structure Keeps (index : List DbFlEntry) (P : Globals → Prop) : Prop where
  calls : ∀ env, Kept ⟨env, index⟩ P
  store : ∀ {g : Globals} (op : StatOp), P g → P { g with neighbours := op.apply g.neighbours }

theorem Keeps.exec {P : Globals → Prop} (hk : Keeps index P) {s t : System} {call : Call}
    (h : s.exec index call = .ok t) (hp : P s.g) : P t.g := by
  cases call with
  | declare i junk | getRoot i | copy i j =>
    obtain rfl := Except.ok.inj h
    exact hp
  | getNextChild i j _ =>
    obtain ⟨c, hc, h⟩ := bind_eq_ok.mp h
    obtain rfl := Except.ok.inj h
    exact (hk.calls s.env).child (childStep_of_ok hc) hp
  | getName i name =>
    obtain ⟨_, -, h⟩ := bind_eq_ok.mp h
    obtain rfl := Except.ok.inj h
    exact hp
  | getIntValue i =>
    obtain ⟨⟨g, v⟩, hv, h⟩ := bind_eq_ok.mp h
    obtain rfl := Except.ok.inj h
    exact (hk.calls s.env).intValue hv hp
  | valueToStr i n buf =>
    obtain ⟨⟨g, b, r⟩, hv, h⟩ := bind_eq_ok.mp h
    obtain rfl := Except.ok.inj h
    exact (hk.calls s.env).valueToStr hv hp
  | kernel env =>
    obtain rfl := Except.ok.inj h
    exact hp
  | store op =>
    obtain rfl := Except.ok.inj h
    exact hk.store op hp

/-- **What every call keeps holds after every run.** -/
theorem Keeps.run {P : Globals → Prop} (hk : Keeps index P) {s t : System} {calls : List Call}
    (h : CLib.run (step index) s calls = some t) (hp : P s.g) : P t.g :=
  run_preserves (I := fun s : System => P s.g)
    (fun _ _ _ hp hstep => hk.exec (step_eq_some.mp hstep) hp) hp h

/-! ## The variables -/

@[simp] theorem assign_self (s : System) (i : Nat) (node : DbNode) :
    (s.assign i node).vars i = node := if_pos rfl

theorem assign_ne (s : System) {i k : Nat} (node : DbNode) (h : k ≠ i) :
    (s.assign i node).vars k = s.vars k := if_neg h

@[simp] theorem put_snd (s : System) (i j : Nat) (c : Cursor) : (s.put i j c).vars j = c.child :=
  assign_self _ j c.child

theorem put_fst (s : System) {i j : Nat} (c : Cursor) (h : i ≠ j) :
    (s.put i j c).vars i = c.node := by
  rw [put, assign_ne _ _ h, assign_self]

theorem put_ne (s : System) {i j k : Nat} (c : Cursor) (hi : k ≠ i) (hj : k ≠ j) :
    (s.put i j c).vars k = s.vars k := by
  rw [put, assign_ne _ _ hj, assign_ne _ _ hi]

/-- The last values count. -/
theorem put_put (s : System) (i j : Nat) (c c' : Cursor) :
    (s.put i j c).put i j c' = s.put i j c' := by
  unfold put assign
  congr 1
  funext k
  dsimp only
  split_ifs <;> rfl

theorem put_assign_fst (s : System) {i j : Nat} (c : Cursor) (node : DbNode) (h : i ≠ j) :
    (s.put i j c).assign i node = s.put i j { c with node := node } := by
  unfold put assign
  congr 1
  funext k
  dsimp only
  split_ifs with h₁ h₂
  · exact absurd (h₁.symm.trans h₂) h
  · rfl
  · rfl
  · rfl

theorem put_self (s : System) (i j : Nat) (node : DbNode) :
    s.put i j ⟨s.g, s.vars i, node⟩ = s.assign j node := by
  unfold put assign
  congr 1
  funext k
  dsimp only
  split_ifs with h₁ h₂
  · rfl
  · rw [h₂]
  · rfl

@[simp] theorem assign_vars (s : System) (i : Nat) : s.assign i (s.vars i) = s := by
  unfold assign
  congr 1
  funext k
  split_ifs with h
  · rw [h]
  · rfl

theorem put_vars (s : System) (i j : Nat) : s.put i j ⟨s.g, s.vars i, s.vars j⟩ = s := by
  rw [put_self, assign_vars]

/-- The cursor in two variables. -/
theorem cursor_put (s : System) {i j : Nat} (c : Cursor) (h : i ≠ j) :
    c = ⟨(s.put i j c).g, (s.put i j c).vars i, (s.put i j c).vars j⟩ := by
  rw [put_fst s c h, put_snd]
  rfl

/-! ## Lookups and dumps are runs -/

variable (index) in
/-- Some calls lead from one state to the other. -/
def Leads (s t : System) : Prop := ∃ calls, CLib.run (step index) s calls = some t

namespace Leads

theorem refl (s : System) : Leads index s s := ⟨[], rfl⟩

theorem trans {s t u : System} (h : Leads index s t) (h' : Leads index t u) : Leads index s u := by
  obtain ⟨calls, hrun⟩ := h
  obtain ⟨calls', hrun'⟩ := h'
  exact ⟨calls ++ calls', run_append_eq_some.mpr ⟨t, hrun, hrun'⟩⟩

theorem call {s t : System} (call : Call) (h : s.exec index call = .ok t) : Leads index s t :=
  ⟨[call], run_cons_eq_some.mpr ⟨t, step_eq_some.mpr h, rfl⟩⟩

variable {s : System} {i j : Nat}

theorem getNextChild (hij : i ≠ j) {c c' : Cursor}
    (h : dbNodeGetNextChild (s.db index) c = .ok c') :
    Leads index (s.put i j c) (s.put i j c') := by
  have hcall : (s.put i j c).exec index (.getNextChild i j hij) = .ok (s.put i j c') := by
    have h' : dbNodeGetNextChild ((s.put i j c).db index)
        ⟨c.g, (s.put i j c).vars i, (s.put i j c).vars j⟩ = .ok c' := by
      rw [put_fst s c hij, put_snd]
      exact h
    rw [exec]
    simp only [put_put]
    exact bind_eq_ok.mpr ⟨c', h', rfl⟩
  exact .call _ hcall

/-- **A search among the children is a run.** -/
theorem search (hij : i ≠ j) {comp : List Char} {fuel : Nat} {sr sr' : Search} {found : Bool}
    (h : searchChild (s.db index) comp fuel sr = .ok (found, sr')) :
    Leads index (s.put i j sr.cur) (s.put i j sr'.cur) := by
  induction fuel generalizing sr with
  | zero => simp [searchChild] at h
  | succ fuel ih =>
    obtain ⟨cur, hcur, hrest⟩ := searchChild_succ_cases _ h
    have hnext := getNextChild (s := s) hij hcur
    rcases hrest with ⟨-, -, rfl⟩ | ⟨-, nameBuf, -, ⟨-, -, rfl⟩ | ⟨-, hrest⟩⟩
    · exact hnext
    · exact hnext
    · exact hnext.trans (ih hrest)

/-- A descent is a search and a copy. -/
theorem descend (hij : i ≠ j) {fuel : Nat} {d d' : Descent} {comp : List Char}
    (h : Dca.descend (s.db index) fuel d comp = .ok d') :
    Leads index (s.put i j ⟨d.g, d.node, d.node⟩) (s.put i j ⟨d'.g, d'.node, d'.node⟩) := by
  obtain ⟨sr, hsearch, rfl, -⟩ := descend_eq_ok h
  refine (search hij hsearch).trans (.call (.copy j i) ?_)
  rw [exec, put_snd, put_assign_fst s _ _ hij]

/-- A descent that fails leaves the node it was stuck at. -/
theorem descend_notFound (hij : i ≠ j) {fuel : Nat} {d : Descent} {comp : List Char} {g : Globals}
    {node : DbNode} (h : Dca.descend (s.db index) fuel d comp = .error (.notFound g node)) :
    ∃ child, Leads index (s.put i j ⟨d.g, d.node, d.node⟩) (s.put i j ⟨g, node, child⟩) := by
  unfold Dca.descend at h
  cases hs : searchChild (s.db index) comp fuel ⟨⟨d.g, d.node, d.node⟩, d.nameBuf⟩ with
  | error t =>
    rw [hs] at h
    simp [searchOutcome] at h
  | ok r =>
    obtain ⟨found, sr⟩ := r
    have hleads := search (s := s) hij hs
    rw [hs] at h
    cases found with
    | true => simp [searchOutcome] at h
    | false =>
      obtain ⟨rfl, rfl⟩ : sr.cur.g = g ∧ sr.cur.node = node := by simpa [searchOutcome] using h
      exact ⟨sr.cur.child, hleads⟩

theorem fold (hij : i ≠ j) {fuel : Nat} {comps : List (List Char)} {d : Descent} {found : Found}
    (h : lookupResult (comps.foldlM (Dca.descend (s.db index) fuel) d) = .ok found) :
    ∃ child, Leads index (s.put i j ⟨d.g, d.node, d.node⟩)
      (s.put i j ⟨found.g, found.node, child⟩) := by
  induction comps generalizing d with
  | nil =>
    obtain rfl := Except.ok.inj h
    exact ⟨d.node, .refl _⟩
  | cons comp comps ih =>
    rw [List.foldlM_cons] at h
    cases hd : Dca.descend (s.db index) fuel d comp with
    | ok d' =>
      rw [hd] at h
      obtain ⟨child, hleads⟩ := ih h
      exact ⟨child, (descend hij hd).trans hleads⟩
    | error stop =>
      rw [hd] at h
      cases stop with
      | trap t => simp [lookupResult] at h
      | notFound g node =>
        obtain rfl := Except.ok.inj h
        exact descend_notFound hij hd

/-- **A lookup into the variable `i` is a run.** `j` is its `child_node`. -/
theorem find (hij : i ≠ j) {fuel : Nat} {path : CString} {child : DbNode} {nameBuf : NameBuf}
    {found : Found}
    (h : dbFindNodeByPath (s.db index) fuel s.g path child nameBuf = .ok found) :
    ∃ child', Leads index s (s.put i j ⟨found.g, found.node, child'⟩) := by
  rw [dbFindNodeByPath_eq_fold] at h
  obtain ⟨child', hfold⟩ := fold (i := i) (j := j) hij h
  have hroot : Leads index s (s.put i j ⟨s.g, dbGetRoot, dbGetRoot⟩) :=
    trans (.call (.getRoot i) rfl) (.call (.getRoot j) rfl)
  exact ⟨child', hroot.trans hfold⟩

/-- What is printed for a leaf is read with one call. -/
theorem printNodeContent {stack : Stack} {g : Globals} {text : CString}
    (h : Dca.printNodeContent (s.db index) stack s.g (s.vars i) = .ok (g, text)) :
    Leads index s { s with g } := by
  unfold Dca.printNodeContent at h
  obtain ⟨⟨g₁, b, r⟩, hval, h⟩ := bind_eq_ok.mp h
  obtain ⟨_, -, h⟩ := bind_eq_ok.mp h
  obtain ⟨rfl, -⟩ := Prod.mk.inj (Except.ok.inj h)
  have hcall : s.exec index (.valueToStr i _ stack.str) = .ok { s with g := g₁ } := by
    rw [exec]
    exact bind_eq_ok.mpr ⟨_, hval, rfl⟩
  exact .call _ hcall

end Leads

/-- The states are the same up to the variables from `k` on. -/
structure Agrees (k : Nat) (s t : System) : Prop where
  env : s.env = t.env
  g : s.g = t.g
  vars : ∀ m < k, s.vars m = t.vars m

theorem Agrees.refl (k : Nat) (s : System) : Agrees k s s := ⟨rfl, rfl, fun _ _ => rfl⟩

variable (index) in
/-- Some calls, with local variables from `k` on, lead to this state. -/
def Comes (k : Nat) (s u : System) : Prop := ∃ t, Leads index s t ∧ Agrees k t u

namespace Comes

variable {s : System} {i j k : Nat}

theorem of_leads {t : System} (h : Leads index s t) : Comes index k s t := ⟨t, h, .refl k t⟩

/--
The children of the variable `i` are taken into the variable `k`, which comes into scope with what
the stack holds.
-/
theorem folder {junk : DbNode} {c c' : Cursor} (hi : i < k)
    (hfirst : dbNodeGetNextChild (s.db index) ⟨s.g, s.vars i, junk⟩ = .ok c)
    (hbelow : Comes index (k + 1) (s.put i k c) (s.put i k c')) :
    Comes index k s ({ s with g := c'.g }.assign i c'.node) := by
  have hdeclare : Leads index s (s.put i k ⟨s.g, s.vars i, junk⟩) :=
    .call (.declare k junk) (by rw [put_self]; rfl)
  have hchild : Leads index s (s.put i k c) :=
    hdeclare.trans (.getNextChild (Nat.ne_of_lt hi) hfirst)
  obtain ⟨t, hleads, hagrees⟩ := hbelow
  refine ⟨t, hchild.trans hleads, hagrees.env, hagrees.g, fun m hm => ?_⟩
  rw [hagrees.vars m (by omega), put, assign_ne _ _ (by omega)]

/-- A child in the variable `j`, and what comes behind it. -/
theorem next {g : Globals} {child : DbNode} {c c' : Cursor} (hij : i ≠ j) (hi : i < k) (hj : j < k)
    (hchild : Comes index k s ({ s with g }.assign j child))
    (hnext : dbNodeGetNextChild (s.db index) ⟨g, s.vars i, child⟩ = .ok c)
    (hrest : ∀ t : System, t.env = s.env → Comes index k (t.put i j c) (t.put i j c')) :
    Comes index k s (s.put i j c') := by
  obtain ⟨t, hleads, hagrees⟩ := hchild
  have hcursor : (⟨g, s.vars i, child⟩ : Cursor) = ⟨t.g, t.vars i, t.vars j⟩ := by
    rw [hagrees.g, hagrees.vars i hi, hagrees.vars j hj, assign_self, assign_ne _ _ hij]
    rfl
  have hdb : t.db index = s.db index := congrArg (fun env => (⟨env, index⟩ : Db)) hagrees.env
  have hstep : Leads index t (t.put i j c) := by
    have hput : Leads index (t.put i j ⟨g, s.vars i, child⟩) (t.put i j c) :=
      .getNextChild hij (by rw [hdb]; exact hnext)
    rwa [hcursor, put_vars] at hput
  obtain ⟨u, hleads', hagrees'⟩ := hrest t hagrees.env
  refine ⟨u, hleads.trans (hstep.trans hleads'), hagrees'.env.trans hagrees.env, hagrees'.g,
    fun m hm => ?_⟩
  rw [hagrees'.vars m hm]
  by_cases hmj : m = j
  · rw [hmj, put_snd, put_snd]
  · by_cases hmi : m = i
    · rw [hmi, put_fst _ _ hij, put_fst _ _ hij]
    · rw [put_ne _ _ hmi hmj, put_ne _ _ hmi hmj, hagrees.vars m hm, assign_ne _ _ hmj]

end Comes

/-- **A dump below a variable is a run**, with its children in fresh variables. -/
theorem comes_tree {stack : Stack} (fuel : Nat) :
    (∀ {s : System} {depth i k : Nat} {g : Globals} {node : DbNode} {out : List Printed}, i < k →
        treeR (s.db index) stack fuel depth s.g (s.vars i) = .ok (g, node, out) →
        Comes index k s ({ s with g }.assign i node)) ∧
      ∀ {s : System} {depth i j k : Nat} {c : Cursor} {out : List Printed}, i ≠ j → i < k → j < k →
        treeChildren (s.db index) stack fuel depth ⟨s.g, s.vars i, s.vars j⟩ = .ok (c, out) →
        Comes index k s (s.put i j c) := by
  induction fuel with
  | zero =>
    refine ⟨?_, ?_⟩
    · intro s depth i k g node out _ h
      simp [treeR] at h
    · intro s depth i j k c out _ _ _ h
      simp [treeChildren] at h
  | succ fuel ih =>
    obtain ⟨ihNode, ihChildren⟩ := ih
    refine ⟨?_, ?_⟩
    · intro s depth i k g node out hi h
      rw [treeR] at h
      obtain ⟨name, -, h⟩ := bind_eq_ok.mp h
      obtain ⟨type, -, h⟩ := bind_eq_ok.mp h
      cases type with
      | null =>
        obtain ⟨rfl, heq⟩ := Prod.mk.inj (Except.ok.inj h)
        obtain ⟨rfl, -⟩ := Prod.mk.inj heq
        rw [assign_vars]
        exact .of_leads (.refl s)
      | inner =>
        obtain ⟨c, hc, h⟩ := bind_eq_ok.mp h
        obtain ⟨⟨c', rest⟩, hrest, h⟩ := bind_eq_ok.mp h
        obtain ⟨rfl, heq⟩ := Prod.mk.inj (Except.ok.inj h)
        obtain ⟨rfl, -⟩ := Prod.mk.inj heq
        have hik : i ≠ k := Nat.ne_of_lt hi
        rw [cursor_put s c hik] at hrest
        have hbelow : Comes index (k + 1) (s.put i k c) ((s.put i k c).put i k c') :=
          ihChildren hik (by omega) (by omega) hrest
        rw [put_put] at hbelow
        exact .folder hi hc hbelow
      | int | float | str =>
        obtain ⟨⟨g', text⟩, hv, h⟩ := bind_eq_ok.mp h
        obtain ⟨rfl, heq⟩ := Prod.mk.inj (Except.ok.inj h)
        obtain ⟨rfl, -⟩ := Prod.mk.inj heq
        have hleads : Leads index s { s with g := g' } := .printNodeContent hv
        have hsame : ({ s with g := g' } : System).assign i (s.vars i) = { s with g := g' } :=
          assign_vars { s with g := g' } i
        rw [hsame]
        exact .of_leads hleads
    · intro s depth i j k c out hij hi hj h
      rw [treeChildren] at h
      obtain ⟨isNull, -, h⟩ := bind_eq_ok.mp h
      cases isNull with
      | true =>
        obtain ⟨rfl, -⟩ := Prod.mk.inj (Except.ok.inj h)
        rw [put_vars]
        exact .of_leads (.refl s)
      | false =>
        obtain ⟨⟨g₁, child, first⟩, hfirst, h⟩ := bind_eq_ok.mp h
        obtain ⟨c₁, hc₁, h⟩ := bind_eq_ok.mp h
        obtain ⟨⟨c₂, rest⟩, hrest, h⟩ := bind_eq_ok.mp h
        obtain ⟨rfl, -⟩ := Prod.mk.inj (Except.ok.inj h)
        refine .next hij hi hj (ihNode hj hfirst) hc₁ fun t henv => ?_
        have hdb : (t.put i j c₁).db index = s.db index :=
          congrArg (fun env => (⟨env, index⟩ : Db)) henv
        rw [cursor_put t c₁ hij, ← hdb] at hrest
        have hbehind : Comes index k (t.put i j c₁) ((t.put i j c₁).put i j c₂) :=
          ihChildren hij hi hj hrest
        rwa [put_put] at hbehind

/-- The held nodes of a session are variables of the system. -/
structure Holds (env : Env) (s : Session) (t : System) : Prop where
  env : t.env = env
  g : t.g = s.g
  held : ∀ i node, s.held[i]? = some node → t.vars i = node

theorem held_lt {s : Session} {i : Nat} {node : DbNode} (h : s.held[i]? = some node) :
    i < s.held.length := (List.getElem?_eq_some_iff.mp h).1

/-- A lookup into the first variable that is free. -/
theorem Holds.find {env : Env} {s : Session} {t : System} (h : Holds env s t) {fuel : Nat}
    {path : CString} {child : DbNode} {nameBuf : NameBuf} {found : Found}
    (hf : dbFindNodeByPath ⟨env, index⟩ fuel s.g path child nameBuf = .ok found) :
    ∃ u, Leads index t u ∧ u.vars s.held.length = found.node ∧
      Holds env { s with g := found.g } u := by
  have hne : s.held.length ≠ s.held.length + 1 := by omega
  have hdb : t.db index = ⟨env, index⟩ := congrArg (fun env => (⟨env, index⟩ : Db)) h.env
  rw [← hdb, ← h.g] at hf
  obtain ⟨child', hleads⟩ := Leads.find hne hf
  refine ⟨_, hleads, put_fst _ _ hne, h.env, rfl, ?_⟩
  intro i node hi
  have hlt : i < s.held.length := held_lt hi
  rw [put_ne _ _ (by omega) (by omega)]
  exact h.held i node hi

theorem held_of_node {s : Session} {i : Nat} {node : DbNode} (h : s.node i = .ok node) :
    s.held[i]? = some node := by
  unfold Session.node at h
  cases hget : s.held[i]? with
  | none =>
    rw [hget] at h
    cases h
  | some n =>
    rw [hget] at h
    exact congrArg some (Except.ok.inj h)

/-- One more node is held, in the first variable that is free. -/
theorem Holds.append {env : Env} {g : Globals} {held : List DbNode} {t : System}
    (h : Holds env ⟨g, held⟩ t) {node : DbNode} (hvar : t.vars held.length = node) :
    Holds env ⟨g, held ++ [node]⟩ t := by
  refine ⟨h.env, h.g, fun i node' hi => ?_⟩
  rw [List.getElem?_append] at hi
  split at hi
  · exact h.held i node' hi
  · next hge =>
    rw [List.getElem?_singleton] at hi
    split_ifs at hi with hz
    obtain rfl : i = held.length := by omega
    exact hvar.trans (Option.some.inj hi)

/-- A child of a held node. -/
theorem Holds.nextChild {env : Env} {s : Session} {t : System} (h : Holds env s t) {i : Nat}
    {node out : DbNode} (hi : s.held[i]? = some node) {c : Cursor}
    (hc : dbNodeGetNextChild ⟨env, index⟩ ⟨s.g, node, out⟩ = .ok c) :
    ∃ u, Leads index t u ∧ Holds env ⟨c.g, s.held.set i c.node ++ [c.child]⟩ u := by
  have hdb : t.db index = ⟨env, index⟩ := congrArg (fun env => (⟨env, index⟩ : Db)) h.env
  have hlt := held_lt hi
  have hij : i ≠ s.held.length := by omega
  have hdeclare : Leads index t (t.put i s.held.length ⟨s.g, node, out⟩) := by
    refine .call (.declare s.held.length out) ?_
    rw [← h.g, ← h.held i node hi, put_self]
    rfl
  have hset : Holds env ⟨c.g, s.held.set i c.node⟩ (t.put i s.held.length c) := by
    refine ⟨h.env, rfl, fun m node' hm => ?_⟩
    have hm' : m < s.held.length := by
      have := (List.getElem?_eq_some_iff.mp hm).1
      rwa [List.length_set] at this
    by_cases hmi : m = i
    · subst hmi
      rw [List.getElem?_set_self hlt] at hm
      rw [put_fst _ _ hij]
      exact Option.some.inj hm
    · rw [List.getElem?_set_ne (Ne.symm hmi)] at hm
      rw [put_ne _ _ hmi (by omega)]
      exact h.held m node' hm
  refine ⟨_, hdeclare.trans (.getNextChild hij (by rw [hdb]; exact hc)), hset.append ?_⟩
  rw [List.length_set, put_snd]

/-- A dump, with the nodes on its way in the variables that are free. -/
theorem Holds.dump {env : Env} {s : Session} {t : System} (h : Holds env s t) {stack : Stack}
    {fuel : Nat} {g : Globals} {out : List Printed}
    (hd : dcadump ⟨env, index⟩ stack fuel s.g = .ok (g, out)) :
    ∃ u, Leads index t u ∧ Holds env { s with g } u := by
  unfold dcadump at hd
  obtain ⟨found, hfound, hd⟩ := bind_eq_ok.mp hd
  obtain ⟨u, hleads, hvar, hholds⟩ := h.find hfound
  split_ifs at hd
  · obtain ⟨rfl, -⟩ := Prod.mk.inj (Except.ok.inj hd)
    exact ⟨u, hleads, hholds⟩
  · obtain ⟨⟨g₁, node, out⟩, htree, hd⟩ := bind_eq_ok.mp hd
    obtain ⟨rfl, -⟩ := Prod.mk.inj (Except.ok.inj hd)
    have hdb : u.db index = ⟨env, index⟩ := congrArg (fun env => (⟨env, index⟩ : Db)) hholds.env
    have hg : u.g = found.g := hholds.g
    rw [← hdb, ← hvar, ← hg] at htree
    obtain ⟨w, hleads', hagrees⟩ := (comes_tree fuel).1 (k := s.held.length + 1) (by omega) htree
    refine ⟨w, hleads.trans hleads', hagrees.env.trans hholds.env, hagrees.g, ?_⟩
    intro m node' hm
    have hlt := held_lt hm
    rw [hagrees.vars m (Nat.lt_succ_of_lt hlt), assign_ne _ _ (Nat.ne_of_lt hlt)]
    exact hholds.held m node' hm

/-- **An operation of a session is a run.** -/
theorem Holds.exec {env : Env} {s s' : Session} {t : System} (h : Holds env s t) {stack : Stack}
    {fuel : Nat} {op : DbOp} (hop : op.exec ⟨env, index⟩ stack fuel s = .ok s') :
    ∃ u, Leads index t u ∧ Holds env s' u := by
  cases op with
  | find path =>
    obtain ⟨found, hfound, hop⟩ := bind_eq_ok.mp hop
    obtain ⟨u, hleads, hvar, hholds⟩ := h.find hfound
    split_ifs at hop
    · obtain rfl := Except.ok.inj hop
      exact ⟨u, hleads, hholds.append hvar⟩
    · obtain rfl := Except.ok.inj hop
      exact ⟨u, hleads, hholds⟩
  | nextChild i out =>
    obtain ⟨node, hi, hop⟩ := bind_eq_ok.mp hop
    obtain ⟨c, hc, hop⟩ := bind_eq_ok.mp hop
    obtain rfl := Except.ok.inj hop
    exact h.nextChild (held_of_node hi) hc
  | name i =>
    obtain ⟨node, -, hop⟩ := bind_eq_ok.mp hop
    obtain ⟨_, -, hop⟩ := bind_eq_ok.mp hop
    obtain rfl := Except.ok.inj hop
    exact ⟨t, .refl t, h⟩
  | value i n =>
    obtain ⟨node, hi, hop⟩ := bind_eq_ok.mp hop
    obtain ⟨⟨g, b, r⟩, hv, hop⟩ := bind_eq_ok.mp hop
    obtain rfl := Except.ok.inj hop
    have hdb : t.db index = ⟨env, index⟩ := congrArg (fun env => (⟨env, index⟩ : Db)) h.env
    have hcall : t.exec index (.valueToStr i n (Buf.zero n)) = .ok { t with g } := by
      rw [System.exec, hdb, h.g, h.held i node (held_of_node hi)]
      exact bind_eq_ok.mpr ⟨_, hv, rfl⟩
    exact ⟨_, .call _ hcall, h.env, rfl, h.held⟩
  | dump =>
    obtain ⟨⟨g, out⟩, hd, hop⟩ := bind_eq_ok.mp hop
    obtain rfl := Except.ok.inj hop
    exact h.dump hd

theorem Holds.history {env : Env} {s s' : Session} {ops : List DbOp}
    (hops : History ⟨env, index⟩ s ops s') {t : System} (h : Holds env s t) :
    ∃ u, Leads index t u ∧ Holds env s' u := by
  induction hops generalizing t with
  | nil s => exact ⟨t, .refl t, h⟩
  | cons stack fuel step rest ih =>
    obtain ⟨u, hu, hholds⟩ := h.exec step
    obtain ⟨w, hw, hholds'⟩ := ih hholds
    exact ⟨w, hu.trans hw, hholds'⟩

end System

/-! ## Reachable shared variables -/

/-- The values of the shared variables after some run from the start of the system. -/
def Reachable (index : List DbFlEntry) (g : Globals) : Prop :=
  ∃ env s, System.Leads index (.boot env) s ∧ s.g = g

/-- **What histories reach is reachable.** -/
theorem reachable_of_history {db : Db} {ops : List DbOp} {s : Session}
    (h : History db (.boot []) ops s) : Reachable db.dbIndex s.g := by
  obtain ⟨t, hleads, hholds⟩ :=
    System.Holds.history h (t := .boot db.env) ⟨rfl, rfl, by simp [Session.boot]⟩
  exact ⟨db.env, t, hleads, hholds.g⟩

theorem Reachable.of_keeps {index : List DbFlEntry} {P : Globals → Prop}
    (hk : System.Keeps index P) (hboot : P (.boot [])) {g : Globals} (h : Reachable index g) :
    P g := by
  obtain ⟨env, s, ⟨calls, hrun⟩, rfl⟩ := h
  exact hk.run hrun hboot

/-! ## The range of the counters -/

/-- Each counter stands at a field. -/
structure Globals.InRange (g : Globals) : Prop where
  fieldCount_nonneg : 0 ≤ g.fieldCount
  fieldCount_lt : g.fieldCount < psCount
  saulFieldCount : g.saulFieldCount = 0
  netifFieldCount : g.netifFieldCount < netifCount

theorem Globals.InRange.fieldCount_cases {g : Globals} (h : g.InRange) :
    g.fieldCount = 0 ∨ g.fieldCount = 1 ∨ g.fieldCount = 2 ∨ g.fieldCount = 3 ∨
      g.fieldCount = 4 := by
  have h₀ : 0 ≤ g.fieldCount.toInt := Int8.le_iff_toInt_le.mp h.fieldCount_nonneg
  have h₁ : g.fieldCount.toInt < 5 := Int8.lt_iff_toInt_lt.mp h.fieldCount_lt
  simp only [← Int8.toInt_inj]
  show g.fieldCount.toInt = 0 ∨ g.fieldCount.toInt = 1 ∨ g.fieldCount.toInt = 2
    ∨ g.fieldCount.toInt = 3 ∨ g.fieldCount.toInt = 4
  omega

theorem netifFieldCount_cases {x : UInt8} (h : x < netifCount) :
    x = 0 ∨ x = 1 ∨ x = 2 ∨ x = 3 ∨ x = 4 := by
  have hn : x.toNat < 5 := h
  simp only [← UInt8.toNat_inj]
  show x.toNat = 0 ∨ x.toNat = 1 ∨ x.toNat = 2 ∨ x.toNat = 3 ∨ x.toNat = 4
  omega

theorem foldl_countNeighbour_inRange (ips : List Ipv6Addr) {g : Globals} (h : g.InRange) :
    (ips.foldl countNeighbour g).InRange := by
  induction ips generalizing g with
  | nil => exact h
  | cons ip ips ih => exact ih ⟨h.1, h.2, h.3, h.4⟩

/-- **No call takes a counter out of its range.** -/
theorem keeps_inRange (index : List DbFlEntry) : System.Keeps index Globals.InRange where
  calls := fun env => {
    child := by
      intro c c' hstep h
      cases hstep with
      | psField g child pid more =>
        -- the last field is left by the other branch
        have hcases := h.fieldCount_cases
        refine ⟨?_, ?_, h.saulFieldCount, h.netifFieldCount⟩
        · rcases hcases with hf | hf | hf | hf | hf <;> simp_all [psCount]
        · rcases hcases with hf | hf | hf | hf | hf <;> simp_all [psCount]
      | psEnd g child pid =>
        exact ⟨(by decide : (0 : Int8) ≤ 0), (by decide : 0 < psCount), h.saulFieldCount,
          h.netifFieldCount⟩
      | saulField g child dev more => exact absurd h.saulFieldCount more
      | saulEnd g child dev =>
        exact ⟨h.fieldCount_nonneg, h.fieldCount_lt, rfl, h.netifFieldCount⟩
      | netifField g child iface more =>
        refine ⟨h.fieldCount_nonneg, h.fieldCount_lt, h.saulFieldCount, ?_⟩
        rw [UInt8.lt_iff_toNat_lt] at more ⊢
        rw [UInt8.toNat_add]
        have hlt : g.netifFieldCount.toNat < 4 := more
        show (g.netifFieldCount.toNat + 1) % 256 < 5
        omega
      | dynamic g child flIdx subIdx f =>
        cases f with
        | dbNewPsNode | dbNewSaulNode => exact h
        | dbNewNetifNode =>
          exact ⟨h.fieldCount_nonneg, h.fieldCount_lt, h.saulFieldCount, (by decide : 0 < netifCount)⟩
      | branch | rootEnd | static | branchEnd | process | processEnd | psLeaf | psStay | device
      | deviceEnd | saulLeaf | saulStay | iface | ifaceEnd | netifLeaf | netifStay
      | netifFieldEnd | neighbours | noNeighbour | neighbour | qos | qosField | qosEnd
      | lastNeighbour | nextNeighbour => exact ⟨h.1, h.2, h.3, h.4⟩
    count := fun ips h => foldl_countNeighbour_inRange ips ⟨h.1, h.2, h.3, h.4⟩ }
  store := fun _ h => ⟨h.1, h.2, h.3, h.4⟩

theorem Reachable.inRange {index : List DbFlEntry} {g : Globals} (h : Reachable index g) :
    g.InRange :=
  h.of_keeps (keeps_inRange index) ⟨by decide, by decide, rfl, by decide⟩

end Dca
