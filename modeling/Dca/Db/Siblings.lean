import Dca.Db.Devices

/-!
# Siblings against children

`db_node_get_next` is written a second time for processes and for devices. Behind the last process
it gives a node for the pid behind the end of the table and only then null. For a device it gives a
leaf, and behind the last one it reads through NULL. So in no state of the kernel it follows the
children of the parent.
-/

namespace Dca

open CLib

variable {db : Db}

variable (db) in
/--
From the first child on `db_node_get_next` leads through the children that `db_node_get_next_child`
gives for the parent, and then to null.
-/
def SiblingsAgree (parent : DbNode) : Prop :=
  ∃ first rest, DbNode.null ∉ first :: rest ∧
    Enumerates db (fun _ => True) parent (first :: rest) ∧ NextChain db first (first :: rest)

/-! ## Chains and enumerations are unique -/

theorem not_nextChain_null {items : List DbNode} : ¬ NextChain db .null items := by
  intro h
  cases h with
  | last h => cases h .null
  | cons h _ => cases h .null

theorem NextChain.unique {node : DbNode} {items items' : List DbNode} (h : NextChain db node items)
    (h' : NextChain db node items') : items = items' := by
  induction h generalizing items' with
  | last hend =>
    cases h' with
    | last _ => rfl
    | cons hnext hrest =>
      obtain rfl := Except.ok.inj ((hend .null).symm.trans (hnext .null))
      exact absurd hrest not_nextChain_null
  | cons hnext hrest ih =>
    cases h' with
    | last hend =>
      obtain rfl := Except.ok.inj ((hend .null).symm.trans (hnext .null))
      exact absurd hrest not_nextChain_null
    | cons hnext' hrest' =>
      obtain rfl := Except.ok.inj ((hnext .null).symm.trans (hnext' .null))
      rw [ih hrest']

theorem Enumerates.unique {node : DbNode} {items items' : List DbNode}
    (h : Enumerates db (fun _ => True) node items) (h' : Enumerates db (fun _ => True) node items')
    (hnull : DbNode.null ∉ items) (hnull' : DbNode.null ∉ items') : items = items' := by
  refine padded_inj hnull hnull' fun n => ?_
  have hcalls := h (List.replicate n ({}, .null)) (by simp)
  rw [h' _ (by simp), List.length_replicate] at hcalls
  exact (Except.ok.inj hcalls).symm

/-! ## Processes -/

theorem next_sibling {pid next : Nat} (hlast : pid ≤ db.env.kernelPidLast)
    (hnext : getNextPid db.env pid = .ok next) (out : DbNode) :
    dbNodeGetNext db (.ps pid .process) out = .ok (.ps next .process) := by
  simp only [dbNodeGetNext, psNodeGetnext, if_pos hlast, hnext, ok_bind, pure_eq_ok, psNodeInit]

/--
**From a process on the calls give the processes behind it, a node without a thread, and null**, by
induction on what is left of the table.
-/
theorem nextChain_processes (n : Nat) {pid : Nat} (hlive : db.env.Live pid)
    (hn : db.env.kernelPidLast < pid + n) :
    NextChain db (.ps pid .process) ((db.env.pidsFrom pid).map (DbNode.ps · .process)
      ++ [.ps (db.env.kernelPidLast + 1) .process]) := by
  induction n generalizing pid with
  | zero => exact absurd hlive.2.1 (by omega)
  | succ n ih =>
    obtain ⟨next, hnext, hlt, hend⟩ := getNextPid_eq hlive.1 hlive.2.1
    rw [pidsFrom_next hlive hnext, List.map_cons, List.cons_append]
    refine .cons (next_sibling hlive.2.1 hnext) ?_
    rcases hend with hlive' | rfl
    · exact ih hlive' (by omega)
    · -- the node behind the last process is no process, and null comes behind it
      rw [pidsFrom_last]
      refine .last fun out => ?_
      have hend : ¬ db.env.kernelPidLast + 1 ≤ db.env.kernelPidLast := Nat.not_succ_le_self _
      simp only [dbNodeGetNext, psNodeGetnext, if_neg hend, pure_eq_ok]

theorem not_siblingsAgree_ps (hfirst : db.env.FirstThread) :
    ¬ SiblingsAgree db dbNewPsNode := by
  rintro ⟨first, rest, hnull, henum, hchain⟩
  have hend : db.env.kernelPidLast < kernelPidFirst + db.env.kernelPidLast :=
    Nat.lt_add_of_pos_left (by decide)
  have hlisted : Enumerates db (fun _ => True) dbNewPsNode
      ((db.env.pidsFrom kernelPidFirst).map (DbNode.ps · .process)) :=
    enumerates_of_supplies (supplies_processes _ (Or.inl hfirst) hend)
  have hitems := henum.unique hlisted hnull (by simp)
  -- the first child is the first process
  obtain ⟨next, hnext, -, -⟩ := getNextPid_eq hfirst.1 hfirst.2.1
  rw [pidsFrom_next hfirst hnext, List.map_cons] at hitems
  obtain ⟨rfl, rfl⟩ := List.cons.inj hitems
  have hsame := hchain.unique (nextChain_processes _ hfirst hend)
  rw [← List.map_cons (f := (DbNode.ps · .process)), ← pidsFrom_next hfirst hnext] at hsame
  have hlen := congrArg List.length hsame
  rw [List.length_append, List.length_singleton] at hlen
  omega

/-! ## Devices -/

/-- **From a device or a class on the calls never come to null.** -/
theorem not_nextChain_saul {node : DbNode} {items : List DbNode} (h : NextChain db node items)
    {dev : Option Nat} {level : SaulLevel} (hlevel : level ≠ .root) : node ≠ .saul dev level := by
  have hnext : ∀ (dev : Option Nat) (level : SaulLevel), level ≠ .root → ∀ next,
      dbNodeGetNext db (.saul dev level) .null = .ok next → ∃ dev', next = .saul dev' .field := by
    intro dev level hlevel next hnext
    cases level with
    | root => exact absurd rfl hlevel
    | device | field =>
      cases dev with
      | none => cases hnext
      | some i => exact ⟨_, (Except.ok.inj hnext).symm⟩
  induction h generalizing dev level with
  | last hend =>
    rintro rfl
    obtain ⟨dev', hnull⟩ := hnext dev level hlevel _ (hend .null)
    cases hnull
  | cons hstep _ ih =>
    rintro rfl
    obtain ⟨dev', hfield⟩ := hnext dev level hlevel _ (hstep .null)
    exact ih (by simp) hfield

theorem not_siblingsAgree_saul (hne : db.env.saulReg ≠ []) :
    ¬ SiblingsAgree db (dbNewSaulNode db.env) := by
  rintro ⟨first, rest, hnull, henum, hchain⟩
  have hlisted : Enumerates db (fun _ => True) (dbNewSaulNode db.env)
      ((List.range' 0 db.env.saulReg.length).map fun i => .saul (some i) .device) :=
    enumerates_of_supplies (supplies_devices db.env.saulReg.length (Nat.zero_add _))
  have hitems := henum.unique hlisted hnull (by simp)
  obtain ⟨n, hn⟩ : ∃ n, db.env.saulReg.length = n + 1 :=
    Nat.exists_eq_succ_of_ne_zero fun hzero => hne (List.length_eq_zero_iff.mp hzero)
  rw [hn, List.range'_succ, List.map_cons] at hitems
  obtain ⟨rfl, -⟩ := List.cons.inj hitems
  exact not_nextChain_saul hchain (by simp) rfl

/-- On the small board neither the processes nor the devices agree. -/
theorem not_forall_siblingsAgree :
    ¬ ∀ db : Db, db.env.FirstThread → db.env.saulReg ≠ [] →
      SiblingsAgree db dbNewPsNode ∧ SiblingsAgree db (dbNewSaulNode db.env) := by
  intro h
  have hfirst : smallDb.env.FirstThread := by
    unfold Env.FirstThread Env.Live
    decide
  exact not_siblingsAgree_ps hfirst (h smallDb hfirst (by simp [smallDb, Db.ofEnv, smallEnv])).1

/-- **Siblings agree with children for no thread table and for no registry.** -/
theorem siblings_disagree (db : Db) :
    (db.env.FirstThread → ¬ SiblingsAgree db dbNewPsNode) ∧
      (db.env.saulReg ≠ [] → ¬ SiblingsAgree db (dbNewSaulNode db.env)) :=
  ⟨not_siblingsAgree_ps, not_siblingsAgree_saul⟩

theorem siblings_disagree_small :
    ¬ SiblingsAgree smallDb dbNewPsNode ∧ ¬ SiblingsAgree smallDb (dbNewSaulNode smallEnv) := by
  obtain ⟨hps, hsaul⟩ := siblings_disagree smallDb
  refine ⟨hps ?_, hsaul (by simp [smallDb, Db.ofEnv, smallEnv])⟩
  unfold Env.FirstThread Env.Live
  decide

end Dca
