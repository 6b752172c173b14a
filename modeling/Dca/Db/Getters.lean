import Dca.Db.Types

/-!
# `board.c`, `runtime.c`, `saul_node.c`, `network.c`: the values of static entries
-/

namespace Dca

open CLib

variable (env : Env)

/-! ## board -/

/-- `strncpy(strbuf, text, bufsize); return strlen(strbuf);` -/
def copyText (text : CString) {n : Nat} (strbuf : Buf n) (bufsize : Nat) : Res (Buf n × Nat) := do
  let strbuf ← inBounds (strbuf.strncpyN text bufsize)
  return (strbuf, ← inBounds strbuf.strlen)

/-- `board_get_name` -/
def boardGetName (n : Nat) (strbuf : Buf n) (bufsize : Nat) : Res (Buf n × Nat) :=
  copyText env.board.riotBoard strbuf bufsize

/-- `board_get_mcu` -/
def boardGetMcu (n : Nat) (strbuf : Buf n) (bufsize : Nat) : Res (Buf n × Nat) :=
  copyText env.board.riotMcu strbuf bufsize

/-- `board_get_ram` -/
def boardGetRam : Int := env.board.dcaMcuRam + env.board.dcaBoardRam + env.board.dcaExtraRam

/-- `board_get_clock` -/
def boardGetClock : Int := env.board.dcaMcuClock

/-- `board_get_nonvolatile` -/
def boardGetNonvolatile : Int :=
  env.board.dcaMcuNvram + env.board.dcaBoardNvram + env.board.dcaExtraNvram

/-! ## runtime -/

/-- `for (kernel_pid_t i = KERNEL_PID_FIRST; i <= KERNEL_PID_LAST; i++)` over occupied slots. -/
def foldThreads {α : Type} (f : α → Nat → Thread → α) (init : α) : α :=
  (List.range' kernelPidFirst env.kernelPidLast).foldl
    (fun acc i => match env.schedThreads i with
      | some p => f acc i p
      | none => acc) init

/-- `runtime_get_cpu_load` -/
def runtimeGetCpuLoad : Int :=
  foldThreads env (fun load _ p =>
    if p.status = .running ∨ p.status = .pending then load + 1 else load) 0

/-- `rt_idle` and `rt_sum` of `runtime_get_cpu_util`. -/
def runtimeTicks : Nat × Nat :=
  foldThreads env (fun (idle, sum) i p =>
    (if p.name = .lit "idle" then env.runtimeTicks i else idle, sum + env.runtimeTicks i)) (0, 0)

/-- `runtime_get_cpu_util`, where `0 / 0` is not a number. -/
def runtimeGetCpuUtil : CFloat :=
  let (rtIdle, rtSum) := runtimeTicks env
  if rtSum = 0 then none
  else
    let quotient := env.round (env.round rtIdle / env.round rtSum)
    some (env.round (env.round (1 - quotient) * 100))

/-- `runtime_get_num_processes` -/
def runtimeGetNumProcesses : Int := env.schedNumThreads

/-- `runtime_get_stack_used` -/
def runtimeGetStackUsed : Int :=
  foldThreads env (fun used _ p => used + (p.stackSize - p.stackFree)) 0

/-- `runtime_get_heap` -/
def runtimeGetHeap : Int := 0

/-! ## saul -/

/-- `SAUL_CAT_MASK` -/
def saulCatMask : UInt8 := 0xc0

/-- `SAUL_CAT_ACT` -/
def saulCatAct : UInt8 := 0x40

/-- `SAUL_CAT_SENSE` -/
def saulCatSense : UInt8 := 0x80

/-- The loop of `saul_get_num_sensors` and `saul_get_num_actuators` for one category. -/
def countCategory (cat : UInt8) : Int :=
  env.saulReg.foldl (fun i dev => if dev.type &&& saulCatMask = cat then i + 1 else i) 0

/-- `saul_get_num_sensors` -/
def saulGetNumSensors : Int := countCategory env saulCatSense

/-- `saul_get_num_actuators` -/
def saulGetNumActuators : Int := countCategory env saulCatAct

/-! ## network -/

/-- The loop of `network_get_num_ifaces`, with `n` interfaces left to see. -/
def numIfacesLoop : Nat → Option Nat → Int → Int
  | 0, _, res => res
  | n + 1, netif, res =>
    match env.netifIter netif with
    | none => res
    | some i => numIfacesLoop n (some i) (res + 1)

/-- `network_get_num_ifaces` -/
def networkGetNumIfaces : Int := numIfacesLoop env (env.ifaces.length + 1) none 0

end Dca
