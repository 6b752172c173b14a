import Dca.Db.Decimal
import Dca.Db.Labels

/-!
# The fields of the processes

The first call for a child moves a process on to the pid of the next thread and makes it a field,
and from then on only the variable of the child has the pid of the process. Which field it is stays
in `_field_count`, which the last field sets back. So the fields of any processes, one after the
other, are those of their own threads.
-/

namespace Dca

open CLib

/-! ## Live threads -/

/-- A live thread with its pid. -/
structure Env.Process (env : Env) where
  pid : Nat
  thread : Thread
  first : kernelPidFirst ≤ pid
  last : pid ≤ env.kernelPidLast
  thread_eq : env.schedThreads pid = some thread

namespace Env.Process

variable {env : Env} (p : env.Process)

theorem live : env.Live p.pid := ⟨p.first, p.last, by rw [p.thread_eq]; rfl⟩

/-- The node of the process. -/
def node : DbNode := psNodeInit p.pid .process

/-- The fields of `thread_property_t` in their order, with their types and the texts of the values. -/
def fields : List (String × DbNodeType × CString) :=
  [("pid", .int, intText p.pid),
    ("state", .str, .lit (stateNames p.thread.status)),
    ("priority", .int, intText p.thread.priority),
    ("total stack", .int, intText p.thread.stackSize),
    ("stack used", .int, intText (p.thread.stackSize - p.thread.stackFree))]

/-- What a dump prints for the fields. -/
def printed (depth : Nat) : List Printed :=
  p.fields.map fun (name, type, text) => ⟨depth, .lit name, type, some text⟩

end Env.Process

/-! ## The loop over the children -/

section Loop

variable (db : Db) (stack : Stack)

/-- The loop of `_tree_r` over the children of a node, with the first call of `get_next_child`. -/
def treeBelow (fuel depth : Nat) (c : Cursor) : Res (Cursor × List Printed) := do
  treeChildren db stack fuel depth (← dbNodeGetNextChild db c)

/--
The same for one node after the other, with one variable for the children. The result has what is
left and printed for each node.
-/
def treeEach (fuel depth : Nat) : Globals → DbNode → List DbNode → Res (List (Cursor × List Printed))
  | _, _, [] => return []
  | g, child, node :: nodes => do
    let (c, out) ← treeBelow db stack fuel depth ⟨g, node, child⟩
    return (c, out) :: (← treeEach fuel depth c.g c.child nodes)

variable {db stack} {depth : Nat}

/-- **A loop that leaves the shared variables alone can be repeated.** -/
theorem ends_treeEach {α : Type} {node : α → DbNode} {g : Globals}
    {Q : α → Cursor × List Printed → Prop} (hkeeps : ∀ a r, Q a r → r.1.g = g)
    (hloop : ∀ a child, Ends (fun _ => False) (Q a)
      (fun fuel => treeBelow db stack fuel depth ⟨g, node a, child⟩))
    (as : List α) (child : DbNode) :
    Ends (fun _ => False) (List.Forall₂ Q as)
      (fun fuel => treeEach db stack fuel depth g child (as.map node)) := by
  induction as generalizing child with
  | nil => exact .const .nil
  | cons a as ih =>
    simp only [List.map_cons, treeEach]
    refine (hloop a child).bind fun r hr => ?_
    obtain ⟨c, out⟩ := r
    obtain rfl : c.g = g := hkeeps a _ hr
    exact (ih c.child).bind fun rest hrest => .const (.cons hr hrest)

end Loop

/-! ## What is printed -/

section Prints

variable {db : Db} {stack : Stack} {depth : Nat} {g : Globals} (p : db.env.Process)

/-- The integers among the values of a process. -/
theorem psNodeGetintValue_eq (g : Globals) :
    psNodeGetintValue db.env g p.pid
      = if g.fieldCount = 0 then .ok (p.pid : Int)
        else if g.fieldCount = 2 then .ok (p.thread.priority : Int)
        else if g.fieldCount = 3 then .ok p.thread.stackSize
        else if g.fieldCount = 4 then .ok (p.thread.stackSize - p.thread.stackFree)
        else .ok (-1) := by
  simp only [psNodeGetintValue, p.last, decide_true, assert_true, ok_bind,
    liveThread_eq p.last p.thread_eq, pure_eq_ok]

theorem print_psInt {field : String} (hname : psFieldName g.fieldCount = some field)
    (hint : psNodeGettype g .field = .int) {v : Int}
    (hv : psNodeGetintValue db.env g p.pid = .ok v) :
    Visit.print db stack depth ⟨g, .ps p.pid .field⟩
      = .ok ⟨depth, .lit field, .int, some (intText v)⟩ := by
  have htype : dbNodeGetType db g (.ps p.pid .field) = .ok .int := congrArg Except.ok hint
  have hvalue : dbNodeGetIntValue db g (.ps p.pid .field) = .ok (g, v) := by
    rw [intValue_ps htype, hv]
    rfl
  have hnames : Names db g (.ps p.pid .field) (.lit field) := names_psField p.last hname
  rw [print_leaf htype (by simp), hnames.print, ok_bind, printContent_int htype hvalue, ok_bind]
  rfl

theorem strType_state (hone : g.fieldCount = 1) (pid : Nat) :
    dbNodeGetType db g (.ps pid .field) = .ok .str := by
  rw [dbNodeGetType, psNodeGettype_field, if_pos hone]

/-- The text of the state, with the length that the getter returns. -/
theorem strValue_state (hone : g.fieldCount = 1) {n : Nat} (hn : dbNodeNameMax ≤ n) (str : Buf n)
    (bufsize : Nat) :
    ∃ b, dbNodeGetStrValue db g (.ps p.pid .field) str bufsize = .ok (b, 88) ∧
      b.Shows (.lit (stateNames p.thread.status)) := by
  have hshort : (CString.lit (stateNames p.thread.status)).length < 30 := stateName_short _
  have hlast : assert (decide (p.pid ≤ db.env.kernelPidLast)) = .ok () := by simp [p.last]
  obtain ⟨b, hb, hchars⟩ := Buf.strncpyN_of_le (s := .lit (stateNames p.thread.status)) str hn
  refine ⟨b, ?_, Buf.shows_of_strncpyBytes hshort hchars⟩
  rw [strValue_ps (strType_state hone p.pid)]
  simp only [ok_bind, psNodeGetstrValue, hlast, liveThread_eq p.last p.thread_eq, if_pos hone, hb,
    inBounds, pure_eq_ok]

/-- The state is printed although the getter returns the size of its table. -/
theorem print_state (hone : g.fieldCount = 1) :
    Visit.print db stack depth ⟨g, .ps p.pid .field⟩
      = .ok ⟨depth, .lit "state", .str, some (.lit (stateNames p.thread.status))⟩ := by
  have htype : dbNodeGetType db g (.ps p.pid .field) = .ok .str := strType_state hone p.pid
  have hname : psFieldName g.fieldCount = some "state" := by
    rw [hone]
    rfl
  have hshort : (CString.lit (stateNames p.thread.status)).length < 30 := stateName_short _
  obtain ⟨b, hget, hs⟩ := strValue_state p hone (by decide : dbNodeNameMax ≤ dcaShellStrbufSize)
    stack.str (dcaShellStrbufSize - 1)
  have hcontent : printNodeContent db stack g (.ps p.pid .field) = .ok (g, _) :=
    printContent_str htype hget hs (by omega) (by decide)
  have hnames : Names db g (.ps p.pid .field) (.lit "state") := names_psField p.last hname
  rw [print_leaf htype (by simp), hnames.print, ok_bind, hcontent, ok_bind]
  rfl

/-- **The fields of a process are printed with the values of its thread.** -/
theorem prints_psFields (hzero : g.fieldCount = 0) :
    Prints db stack depth (psFieldForest p.pid 4 g) (p.printed depth) := by
  obtain ⟨fieldCount, _, _, _, _, _⟩ := g
  obtain rfl : fieldCount = 0 := hzero
  refine .cons (print_psInt p rfl rfl (psNodeGetintValue_eq p _)) ?_
  refine .cons (print_state p rfl) ?_
  refine .cons (print_psInt p rfl rfl (psNodeGetintValue_eq p _)) ?_
  refine .cons (print_psInt p rfl rfl (psNodeGetintValue_eq p _)) ?_
  exact .cons (print_psInt p rfl rfl (psNodeGetintValue_eq p _)) .nil

/-- The loop for one process, in whatever variable. -/
theorem ends_process (hzero : g.fieldCount = 0) (child : DbNode) :
    Ends (fun _ => False)
      (fun r : Cursor × List Printed =>
        r.1.g = g ∧ r.1.child = .null ∧ r.2 = p.printed (depth + 1))
      (fun fuel => treeBelow db stack fuel depth ⟨g, p.node, child⟩) := by
  obtain ⟨next, hnext, -, -⟩ := getNextPid_eq p.first p.last
  have hlt : g.fieldCount < psCount := by
    rw [hzero]
    decide
  have hfirst : dbNodeGetNextChild db ⟨g, p.node, child⟩
      = .ok ⟨g, .ps next .field, .ps p.pid .field⟩ := next_process child p.last hlt hnext
  have htours : Tours db stack.node ⟨g, .ps next .field, .ps p.pid .field⟩ _ _ :=
    tours_psFields next p.pid 4 (by rw [hzero]; decide) (by rw [hzero]; rfl)
  simp only [treeBelow, hfirst, ok_bind]
  refine (htours.prints (prints_psFields p hzero)).mono (fun _ => id) ?_
  rintro r rfl
  have hsame : ({ g with fieldCount := 0 } : Globals) = g := by rw [← hzero]
  exact ⟨hsame, rfl, rfl⟩

end Prints

/--
**The fields of the processes are dumped completely and correctly.** Whatever live threads come one
after the other, each of them gives its five fields with its own values. Then the variable of the
child is null, and `_field_count` is 0 again.
-/
theorem fields_dumped (db : Db) (stack : Stack) (depth : Nat) (g : Globals) (hzero : g.fieldCount = 0)
    (child : DbNode) (processes : List db.env.Process) :
    ∃ N results,
      (∀ fuel ≥ N, treeEach db stack fuel depth g child (processes.map (·.node)) = .ok results) ∧
      List.Forall₂
        (fun p r => r.1.g = g ∧ r.1.child = .null ∧ r.2 = p.printed (depth + 1))
        processes results := by
  have hends : Ends (fun _ => False) _ fun fuel =>
      treeEach db stack fuel depth g child (processes.map (·.node)) :=
    ends_treeEach (fun _ _ hr => hr.1) (fun p child => ends_process p hzero child) processes child
  obtain ⟨N, result, hresult, hout⟩ := hends.exists_fuel
  cases result with
  | error t => exact hout.elim
  | ok results => exact ⟨N, results, hresult, hout⟩

/-- The two threads of the small board. -/
def idleProcess : smallDb.env.Process := ⟨1, _, by decide, by decide, rfl⟩

def mainProcess : smallDb.env.Process := ⟨2, _, by decide, by decide, rfl⟩

theorem fields_dumped_small :
    ∃ N results,
      (∀ fuel ≥ N, treeEach smallDb ⟨.null, Buf.zero _, Buf.zero _⟩ fuel 0 {} (.root 3)
        (List.map (·.node) [mainProcess, idleProcess, mainProcess]) = .ok results) ∧
      List.Forall₂
        (fun p r => r.1.g = {} ∧ r.1.child = .null ∧ r.2 = p.printed 1)
        [mainProcess, idleProcess, mainProcess] results :=
  fields_dumped smallDb ⟨.null, Buf.zero _, Buf.zero _⟩ 0 {} rfl (.root 3)
    [mainProcess, idleProcess, mainProcess]

end Dca
