import Dca.Lib.CString
import Dca.Lib.Result

/-!
# Data model of the database

Nodes, the kernel tables they show, and the file-level variables of `ps.c`, `saul_devices.c`,
`netif.c` and `linked_list.c`.

A `db_node_t` is an operation table and eight private bytes. Each operation table belongs to one
source file, so a node is one constructor per file with that file's private data.
-/

namespace Dca

open CLib

/-! ## Results -/

/-- Ways in which a call does not come back. -/
inductive Trap where
  /-- A failed `assert`. -/
  | assert
  /-- A NULL dereference. -/
  | null
  /-- An access outside an object. -/
  | bounds
  /-- A call through a function pointer of another type. -/
  | badCall
  /-- The bound on the number of iterations of a loop was used up. -/
  | fuel
  /-- A division by zero. -/
  | divZero
  deriving DecidableEq

abbrev Res (α : Type) := Except Trap α

/-- A library call that would leave its array. -/
def inBounds {α : Type} : Option α → Res α
  | some a => .ok a
  | none => .error .bounds

/-- `assert(c)` -/
def assert (c : Bool) : Res Unit := if c then .ok () else .error .assert

@[simp] theorem assert_true : assert true = .ok () := rfl

@[simp] theorem assert_eq_ok {c : Bool} : assert c = .ok () ↔ c = true := by
  cases c <;> simp [assert]

@[simp] theorem inBounds_eq_ok {α : Type} {o : Option α} {a : α} :
    inBounds o = .ok a ↔ o = some a := by
  cases o <;> simp [inBounds]

/-! ## Kernel tables -/

/-- `thread_status_t` -/
inductive ThreadStatus where
  | stopped | zombie | sleeping | mutexBlocked | receiveBlocked | sendBlocked | replyBlocked
  | flagBlockedAny | flagBlockedAll | mboxBlocked | condBlocked | running | pending
  deriving DecidableEq

/-- `thread_t`. `stackFree` is what `thread_measure_stack_free(p->stack_start)` returns. -/
structure Thread where
  name : CString
  status : ThreadStatus
  priority : Nat
  stackSize : Int
  stackFree : Int
  deriving DecidableEq

/-- `saul_reg_t`. `type` is `driver->type`. -/
structure SaulReg where
  name : CString
  type : UInt8
  deriving DecidableEq

/-- `ipv6_addr_t` -/
abbrev Ipv6Addr := BitVec 128

/-- `US_PER_SEC` -/
def usPerSec : UInt32 := 1000000

/-- `IPV6_ADDR_MAX_STR_LEN` -/
def ipv6AddrMaxStrLen : Nat := 46

/--
`netif_t` as the `netif_*` functions show it: `netif_get_id`, `netif_get_name`, the first address
that `netif_get_opt(NETOPT_IPV6_ADDR)` yields, and the result of `netif_get_opt(NETOPT_IS_WIRED)`.
-/
structure Netif where
  id : Int
  name : CString
  ipv6Addr : Option Ipv6Addr
  isWired : Int
  deriving DecidableEq

/-- A `float`. `none` stands for infinities and NaN. -/
abbrev CFloat := Option Rat

/-- The constants that `board.c` takes from the build. -/
structure Board where
  riotBoard : CString
  riotMcu : CString
  dcaMcuRam : Int
  dcaBoardRam : Int
  dcaExtraRam : Int
  dcaMcuClock : Int
  dcaMcuNvram : Int
  dcaBoardNvram : Int
  dcaExtraNvram : Int
  deriving DecidableEq

/--
Everything outside the database that its operations read. A pointer to a SAUL entry or to an
interface is a position in `saulReg` or `ifaces`, and NULL is `none`.

`nibNc i` lists the addresses that `gnrc_ipv6_nib_nc_iter(i, ..)` yields. `round` is the rounding
of one `float` operation, and `fmtFloat` is the text that `fmt_float` writes. `kernelPidMax` is the
largest `kernel_pid_t`.
-/
structure Env where
  schedThreads : Nat → Option Thread
  kernelPidLast : Nat
  kernelPidMax : Nat
  kernelPidLast_lt : kernelPidLast < kernelPidMax
  schedNumThreads : Int
  runtimeTicks : Nat → Nat
  saulReg : List SaulReg
  saulClassToStr : UInt8 → CString
  ifaces : List Netif
  nibNc : Int → List Ipv6Addr
  ipv6AddrToStr : Ipv6Addr → CString
  ipv6AddrToStr_fits : ∀ a, (ipv6AddrToStr a).length < ipv6AddrMaxStrLen
  round : Rat → Rat
  fmtFloat : CFloat → Nat → CString
  board : Board

/-- `KERNEL_PID_FIRST` -/
def kernelPidFirst : Nat := 1

/-- `sched_threads[pid]`, an array of `KERNEL_PID_LAST + 1` slots. -/
def Env.thread (env : Env) (pid : Nat) : Res (Option Thread) :=
  if pid ≤ env.kernelPidLast then .ok (env.schedThreads pid) else .error .bounds

/-- `*dev` -/
def Env.saul (env : Env) : Option Nat → Res SaulReg
  | none => .error .null
  | some i => match env.saulReg[i]? with
    | some r => .ok r
    | none => .error .bounds

/-- The pointer to position `i` of a list that ends in NULL. -/
def linkAt (len i : Nat) : Option Nat := if i < len then some i else none

/-- `saul_reg` -/
def Env.saulHead (env : Env) : Option Nat := linkAt env.saulReg.length 0

/-- `dev->next` -/
def Env.saulNext (env : Env) (i : Nat) : Option Nat := linkAt env.saulReg.length (i + 1)

/-- `*iface` -/
def Env.iface (env : Env) : Option Nat → Res Netif
  | none => .error .null
  | some i => match env.ifaces[i]? with
    | some n => .ok n
    | none => .error .bounds

/-- `netif_iter(last)` -/
def Env.netifIter (env : Env) : Option Nat → Option Nat
  | none => linkAt env.ifaces.length 0
  | some i => linkAt env.ifaces.length (i + 1)

/-! ## Nodes -/

/-- `DB_NODE_NAME_MAX` -/
abbrev dbNodeNameMax : Nat := 30

/-- `char name[DB_NODE_NAME_MAX]` -/
abbrev NameBuf := Buf dbNodeNameMax

/-- `db_node_type_t` -/
inductive DbNodeType where
  | null | inner | int | float | str
  deriving DecidableEq

/-- `is_root` of `ps.c`: 2, 1 and 0. -/
inductive PsLevel where
  | root | process | field
  deriving DecidableEq

/-- `is_root` of `saul_devices.c`: 2, 1 and 0. -/
inductive SaulLevel where
  | root | device | field
  deriving DecidableEq

/-- `is_root` of `netif.c`: 4, 3, 2, 1 and 0. -/
inductive NetifLevel where
  | root | iface | field | neighbour | qos
  deriving DecidableEq

/-- `db_node_t` -/
inductive DbNode where
  | null
  | root (idx : UInt8)
  | fl (flIdx subIdx : UInt8) (isRoot : Bool)
  | ps (pid : Nat) (level : PsLevel)
  | saul (dev : Option Nat) (level : SaulLevel)
  | netif (iface : Option Nat) (level : NetifLevel)
  deriving DecidableEq

/-- `struct neighbor_entryl` without its link. -/
structure NeighborEntryl where
  addr : Ipv6Addr
  latency : UInt32
  packetLoss : UInt32
  throughput : UInt32
  deriving DecidableEq

/-- The variables that node operations share, with their initial values. -/
structure Globals where
  /-- `_field_count` of `ps.c` -/
  fieldCount : Int8 := 0
  /-- `_saul_field_count` -/
  saulFieldCount : Int8 := 0
  /-- `_netif_field_count` -/
  netifFieldCount : UInt8 := 0
  /-- `_netif_sub_field_count` -/
  netifSubFieldCount : UInt8 := 1
  /-- `_num_neighbours` -/
  numNeighbours : UInt8 := 0
  /-- The list behind `head` of `linked_list.c`, first entry first. -/
  neighbours : List NeighborEntryl := []
  deriving DecidableEq

/-- The state that `get_next_child` works on: the variables `*node` and `*next_child`. -/
structure Cursor where
  g : Globals
  node : DbNode
  child : DbNode
  deriving DecidableEq

/-! ## The first-level tables -/

/-- A name in a `char[DB_NODE_NAME_MAX]` field of a table, terminated or full. -/
structure DbName extends CString where
  fits : toCString.length ≤ dbNodeNameMax
  deriving DecidableEq

/-- `get_value_fn` before it is cast to `void (*)(void)`. -/
inductive GetValueFn where
  | int (f : Env → Int)
  | float (f : Env → CFloat)
  | str (f : Env → (n : Nat) → Buf n → Nat → Res (Buf n × Nat))

/-- `get_node_fn`: the constructors of dynamic nodes. -/
inductive GetNodeFn where
  | dbNewPsNode | dbNewSaulNode | dbNewNetifNode
  deriving DecidableEq

/-- `db_fl_static_entry_t` -/
structure DbFlStaticEntry where
  name : DbName
  type : DbNodeType
  getValueFn : GetValueFn

/-- `db_fl_dynamic_entry_t` -/
structure DbFlDynamicEntry where
  name : DbName
  getNodeFn : GetNodeFn
  deriving DecidableEq

/-- `db_fl_entry_t` -/
structure DbFlEntry where
  branchName : DbName
  staticEntries : List DbFlStaticEntry
  dynamicEntries : List DbFlDynamicEntry

/-- A database: the kernel it looks at and its table `db_index`. -/
structure Db where
  env : Env
  dbIndex : List DbFlEntry

end Dca
