import Dca.Db.Types

/-!
# `ps.c`: processes and their fields

`/runtime/ps` lists the processes and each process lists five fields. Which field a leaf stands
for is not kept in the leaf but in `_field_count`.
-/

namespace Dca

open CLib

/-- `COUNT` of `thread_property_t` -/
def psCount : Int8 := 5

/-- `field_names[_field_count]`, where there is such a field. -/
def psFieldName (fieldCount : Int8) : Option String :=
  if fieldCount = 0 then some "pid"
  else if fieldCount = 1 then some "state"
  else if fieldCount = 2 then some "priority"
  else if fieldCount = 3 then some "total stack"
  else if fieldCount = 4 then some "stack used"
  else none

/-- `state_names[]` -/
def stateNames : ThreadStatus → String
  | .stopped => "stopped"
  | .zombie => "zombie"
  | .sleeping => "sleeping"
  | .mutexBlocked => "bl mutex"
  | .receiveBlocked => "bl rx"
  | .sendBlocked => "bl send"
  | .replyBlocked => "bl reply"
  | .flagBlockedAny => "bl anyfl"
  | .flagBlockedAll => "bl allfl"
  | .mboxBlocked => "bl mbox"
  | .condBlocked => "bl cond"
  | .running => "running"
  | .pending => "pending"

/-- `_ps_node_init` -/
def psNodeInit (pid : Nat) (level : PsLevel) : DbNode := .ps pid level

/--
The loop of `_get_next_pid`. `n` counts the pids up to `KERNEL_PID_LAST + 1`, and at `n = 0` the
loop would read behind `sched_threads`. No pid exceeds `KERNEL_PID_LAST + 1`, so all of them are
values of a `kernel_pid_t` (`Env.PidOrEnd.fits`).
-/
def getNextPidLoop (env : Env) : Nat → Nat → Res Nat
  | 0, _ => .error .bounds
  | n + 1, pid =>
    if pid + 1 = env.kernelPidLast + 1 then .ok (env.kernelPidLast + 1)
    else
      match env.schedThreads (pid + 1) with
      | none => getNextPidLoop env n (pid + 1)
      | some _ => .ok (pid + 1)

/-- `_get_next_pid` -/
def getNextPid (env : Env) (pid : Nat) : Res Nat := do
  assert (kernelPidFirst ≤ pid)
  assert (pid ≤ env.kernelPidLast + 1)
  getNextPidLoop env (env.kernelPidLast + 1 - pid) pid

/-- `db_new_ps_node` -/
def dbNewPsNode : DbNode := psNodeInit kernelPidFirst .root

/-- `thread_t *p = sched_threads[pid]; assert(p != NULL);` -/
def liveThread (env : Env) (pid : Nat) : Res Thread := do
  match ← env.thread pid with
  | none => .error .assert
  | some p => .ok p

/-- `_ps_node_get_field_name` -/
def psNodeGetFieldName (env : Env) (g : Globals) (pid : Nat) (name : NameBuf) : Res NameBuf := do
  assert (pid ≤ env.kernelPidLast)
  match psFieldName g.fieldCount with
  | some field => return name.strncpy (.lit field)
  | none => return name

/-- `_ps_node_getname` -/
def psNodeGetname (env : Env) (g : Globals) (pid : Nat) (level : PsLevel) (name : NameBuf) :
    Res NameBuf := do
  match level with
  | .root => return name.strncpy (.lit "ps")
  | .process =>
    assert (pid ≤ env.kernelPidLast)
    let p ← liveThread env pid
    return name.strncpy p.name
  | .field =>
    if g.fieldCount < psCount then
      let name ← psNodeGetFieldName env g pid name
      return name.strncpy name.str
    else return name

/-- `_ps_node_getnext_child`. A process turns into a leaf when its first field is taken. -/
def psNodeGetnextChild (env : Env) (c : Cursor) (pid : Nat) (level : PsLevel) : Res Cursor := do
  match level with
  | .root =>
    if pid ≤ env.kernelPidLast then
      let next ← getNextPid env pid
      return { c with node := .ps next .root, child := psNodeInit pid .process }
    else return { c with child := .null }
  | .process =>
    if pid ≤ env.kernelPidLast ∧ c.g.fieldCount < psCount then
      let next ← getNextPid env pid
      return { c with node := .ps next .field, child := psNodeInit pid .field }
    else return c
  | .field =>
    if c.g.fieldCount = psCount - 1 then
      return { c with g := { c.g with fieldCount := 0 }, child := .null }
    else
      -- the child variable keeps its old value
      return { c with g := { c.g with fieldCount := c.g.fieldCount + 1 } }

/-- `_ps_node_getnext` -/
def psNodeGetnext (env : Env) (pid : Nat) (level : PsLevel) : Res DbNode := do
  match level with
  | .root => return .null
  | .process =>
    if pid ≤ env.kernelPidLast then return psNodeInit (← getNextPid env pid) .process
    else return .null
  | .field =>
    if pid ≤ env.kernelPidLast then return psNodeInit (← getNextPid env pid) .field
    else return .null

/-- `_ps_node_gettype` -/
def psNodeGettype (g : Globals) : PsLevel → DbNodeType
  | .root => .inner
  | .process => .inner
  | .field =>
    if g.fieldCount = 0 then .int
    else if g.fieldCount = 1 then .str
    else if g.fieldCount = 2 then .int
    else if g.fieldCount = 3 then .int
    else .int

/-- `_ps_node_getsize` -/
def psNodeGetsize : PsLevel → Nat
  | .root => 0
  | .process => 0
  | .field => 4

/-- `_ps_node_getint_value` -/
def psNodeGetintValue (env : Env) (g : Globals) (pid : Nat) : Res Int := do
  assert (pid ≤ env.kernelPidLast)
  if g.fieldCount = 0 then return pid
  else if g.fieldCount = 2 then return (← liveThread env pid).priority
  else if g.fieldCount = 3 then return (← liveThread env pid).stackSize
  else if g.fieldCount = 4 then
    let p ← liveThread env pid
    return p.stackSize - p.stackFree
  else return -1

/-- `_ps_node_getstr_value` -/
def psNodeGetstrValue {n : Nat} (env : Env) (g : Globals) (pid : Nat) (value : Buf n) :
    Res (Buf n × Nat) := do
  assert (pid ≤ env.kernelPidLast)
  let p ← liveThread env pid
  if g.fieldCount = 1 then
    return (← inBounds (value.strncpyN (.lit (stateNames p.status)) dbNodeNameMax), 88)
  else return (value, 88)

end Dca
