import Dca.Db.Getters
import Dca.Db.Node

/-!
# `db.c`: the table `db_index`
-/

namespace Dca

open CLib

/-- A name that is written out in a table. -/
def tableName (s : String) (h : (CString.lit s).length ≤ dbNodeNameMax := by decide) : DbName :=
  ⟨.lit s, h⟩

/-- `CONFIG_DCA_PS`, `CONFIG_DCA_NETWORK` and `CONFIG_DCA_SAUL`. -/
structure Config where
  ps : Bool := true
  network : Bool := true
  saul : Bool := true
  deriving DecidableEq

/-- `_board_static_entries` and its row. -/
def boardEntry : DbFlEntry where
  branchName := tableName "board"
  staticEntries := [
    ⟨tableName "name", .str, .str boardGetName⟩,
    ⟨tableName "mcu", .str, .str boardGetMcu⟩,
    ⟨tableName "ram", .int, .int boardGetRam⟩,
    ⟨tableName "clock", .int, .int boardGetClock⟩,
    ⟨tableName "nonvolatile", .int, .int boardGetNonvolatile⟩]
  dynamicEntries := []

/-- `_runtime_static_entries`, `_runtime_dynamic_entries` and their row. -/
def runtimeEntry (cfg : Config) : DbFlEntry where
  branchName := tableName "runtime"
  staticEntries := [
    ⟨tableName "cpu_load", .int, .int runtimeGetCpuLoad⟩,
    ⟨tableName "cpu_util", .float, .float runtimeGetCpuUtil⟩,
    ⟨tableName "num_processes", .int, .int runtimeGetNumProcesses⟩,
    ⟨tableName "stack_used", .int, .int runtimeGetStackUsed⟩,
    ⟨tableName "heap", .int, .int fun _ => runtimeGetHeap⟩]
  dynamicEntries := if cfg.ps then [⟨tableName "ps", .dbNewPsNode⟩] else []

/-- `_network_static_entries`, `_network_dynamic_entries` and their row. -/
def networkEntry : DbFlEntry where
  branchName := tableName "network"
  staticEntries := [⟨tableName "num_ifaces", .int, .int networkGetNumIfaces⟩]
  dynamicEntries := [⟨tableName "netif", .dbNewNetifNode⟩]

/-- `_saul_static_entries`, `_saul_dynamic_entries` and their row. -/
def saulEntry : DbFlEntry where
  branchName := tableName "saul"
  staticEntries := [
    ⟨tableName "num_sensors", .int, .int saulGetNumSensors⟩,
    ⟨tableName "num_actuators", .int, .int saulGetNumActuators⟩]
  dynamicEntries := [⟨tableName "devices", .dbNewSaulNode⟩]

/-- `db_index[]` -/
def dbIndex (cfg : Config) : List DbFlEntry :=
  [boardEntry, runtimeEntry cfg] ++ (if cfg.network then [networkEntry] else [])
    ++ (if cfg.saul then [saulEntry] else [])

/-- The database of a build. -/
def Db.ofEnv (cfg : Config) (env : Env) : Db := ⟨env, Dca.dbIndex cfg⟩

/-! ## A small board -/

/-- The link-local addresses `fe80::1`, `fe80::2` and so on. -/
def linkLocal (i : Nat) : Ipv6Addr := BitVec.ofNat 128 (0xfe80 * 2 ^ 112 + i)

/-- The text of the addresses that the small board meets. -/
def linkLocalText (a : Ipv6Addr) : CString :=
  if a = linkLocal 1 then .lit "fe80::1"
  else if a = linkLocal 2 then .lit "fe80::2"
  else .lit "::"

theorem linkLocalText_fits (a : Ipv6Addr) : (linkLocalText a).length < ipv6AddrMaxStrLen := by
  unfold linkLocalText
  split
  · decide
  · split <;> decide

/-- Two threads, one SAUL device, and one interface with one neighbour. -/
def smallEnv : Env where
  schedThreads pid :=
    if pid = 1 then some ⟨.lit "idle", .pending, 15, 256, 128⟩
    else if pid = 2 then some ⟨.lit "main", .running, 7, 1536, 512⟩
    else none
  kernelPidLast := 3
  kernelPidMax := 32767
  kernelPidLast_lt := by decide
  schedNumThreads := 2
  runtimeTicks := fun _ => 1
  saulReg := [⟨.lit "led", 0x42⟩]
  saulClassToStr := fun _ => .lit "ACT_SWITCH"
  ifaces := [⟨6, .lit "6", some (linkLocal 2), 0⟩]
  nibNc := fun _ => [linkLocal 1]
  ipv6AddrToStr := linkLocalText
  ipv6AddrToStr_fits := linkLocalText_fits
  round := fun x => x
  fmtFloat := fun _ _ => .lit "0"
  board := ⟨.lit "native", .lit "native", 0, 0, 0, 0, 0, 0, 0⟩

/-- The database of the small board with every option on. -/
def smallDb : Db := .ofEnv {} smallEnv

end Dca
