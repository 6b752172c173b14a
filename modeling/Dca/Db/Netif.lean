import Dca.Neighbour.Entries

/-!
# `netif.c`: interfaces, their fields and their neighbours

`/network/netif` lists the interfaces, an interface lists five fields, the field `neighbours`
lists addresses and an address lists three measurements. The position among the fields, among the
measurements and in the neighbour list is kept in three shared counters.
-/

namespace Dca

open CLib

/-- `COUNT` of `device_property_t` -/
def netifCount : UInt8 := 5

/-- `QOS_COUNT` -/
def qosCount : UInt8 := 4

/-- `field_names[_netif_field_count]`, where there is such a field. -/
def netifFieldName (fieldCount : UInt8) : Option String :=
  if fieldCount = 0 then some "pid"
  else if fieldCount = 1 then some "inet6 addr"
  else if fieldCount = 2 then some "Link type"
  else if fieldCount = 3 then some "num_neighbours"
  else if fieldCount = 4 then some "neighbours"
  else none

/-- The member of `sub_field_names[]` at `_netif_sub_field_count`, which counts from 1. -/
def netifSubFieldName (subFieldCount : UInt8) : Option String :=
  if subFieldCount = 1 then some "ip"
  else if subFieldCount = 2 then some "latency"
  else if subFieldCount = 3 then some "packet_loss"
  else if subFieldCount = 4 then some "throughput"
  else none

/-- `_netif_node_init` -/
def netifNodeInit (iface : Option Nat) (level : NetifLevel) : DbNode := .netif iface level

/-- `db_new_netif_node` -/
def dbNewNetifNode (env : Env) (g : Globals) : Globals × DbNode :=
  ({ g with netifFieldCount := 0, netifSubFieldCount := 1 },
    netifNodeInit (env.netifIter none) .root)

/-- `_netif_get_ip` as `_netif_node_getname` uses it, without the length it returns. -/
def netifGetIp {n : Nat} (env : Env) (g : Globals) (addrStr : Buf n) : Res (Buf n) :=
  (readIp env g.neighbours g.numNeighbours addrStr).map Prod.fst

/-- `_netif_node_get_field_name` -/
def netifNodeGetFieldName (g : Globals) (iface : Option Nat) (name : NameBuf) : Res NameBuf := do
  assert iface.isSome
  match netifFieldName g.netifFieldCount with
  | some field => return name.strncpy (.lit field)
  | none => return name

/-- `_netif_node_get_sub_field_name` -/
def netifNodeGetSubFieldName (g : Globals) (name : NameBuf) : NameBuf :=
  match netifSubFieldName g.netifSubFieldCount with
  | some field => name.strncpy (.lit field)
  | none => name

/-- `_netif_node_getname` -/
def netifNodeGetname (env : Env) (g : Globals) (iface : Option Nat) (level : NetifLevel)
    (name : NameBuf) : Res NameBuf := do
  match level with
  | .root => return name.strncpy (.lit "netif")
  | .iface =>
    assert iface.isSome
    inBounds (name.strcpy (← env.iface iface).name)
  | .field =>
    if g.netifFieldCount < netifCount then
      let name ← netifNodeGetFieldName g iface name
      return name.strncpy name.str
    else return name
  | .neighbour => netifGetIp env g name
  | .qos =>
    if g.netifSubFieldCount ≤ qosCount then
      let name := netifNodeGetSubFieldName g name
      return name.strncpy name.str
    else return name

/--
The end of a neighbour at levels 1 and 0 of `_netif_node_getnext_child`: go to the entry in front
of the current one, or stop. `again` is the recursive call.
-/
def netifNextNeighbour (again : Cursor → Res Cursor) (c : Cursor) (iface : Option Nat) :
    Res Cursor :=
  let g := { c.g with numNeighbours := c.g.numNeighbours - 1 }
  if g.numNeighbours = 0 then
    .ok { c with g := { g with netifSubFieldCount := 1 }, child := .null }
  else again { c with g := { g with netifSubFieldCount := 1 }, node := .netif iface .neighbour }

/-- The body of `_netif_node_getnext_child`. -/
def netifGetnextChildBody (env : Env) (again : Cursor → Res Cursor) (c : Cursor) : Res Cursor :=
  match c.node with
  | .netif iface .root =>
    match iface with
    | some _ =>
      .ok { c with
        node := .netif (env.netifIter iface) .root, child := netifNodeInit iface .iface }
    | none => .ok { c with child := .null }
  | .netif iface .iface =>
    if iface ≠ none ∧ c.g.netifFieldCount < netifCount then
      .ok { c with
        node := .netif (env.netifIter iface) .field, child := netifNodeInit iface .field }
    else .ok c
  | .netif iface .field =>
    if c.g.netifFieldCount = netifCount - 1 ∧ iface ≠ none ∧ 0 < c.g.numNeighbours then
      .ok {
        g := { c.g with netifSubFieldCount := c.g.netifSubFieldCount + 1 }
        node := .netif iface .neighbour
        child := netifNodeInit iface .neighbour }
    else if c.g.netifFieldCount < netifCount - 1 then
      -- the child variable keeps its old value
      .ok { c with g := { c.g with netifFieldCount := c.g.netifFieldCount + 1 } }
    else .ok { c with child := .null }
  | .netif iface .neighbour =>
    if c.g.numNeighbours ≤ 0 then
      .ok { c with g := { c.g with netifSubFieldCount := 1 }, child := .null }
    else if c.g.netifSubFieldCount = 1 then
      .ok {
        g := { c.g with netifSubFieldCount := c.g.netifSubFieldCount + 1 }
        node := .netif iface .neighbour
        child := netifNodeInit iface .neighbour }
    else if c.g.netifSubFieldCount < qosCount then
      .ok { c with node := .netif iface .qos, child := netifNodeInit iface .qos }
    else netifNextNeighbour again c iface
  | .netif iface .qos =>
    if c.g.netifSubFieldCount < qosCount then
      -- the child variable keeps its old value
      .ok { c with g := { c.g with netifSubFieldCount := c.g.netifSubFieldCount + 1 } }
    else if c.g.netifSubFieldCount = qosCount ∧ c.g.numNeighbours ≠ 0 then
      .ok { c with
        g := { c.g with netifSubFieldCount := c.g.netifSubFieldCount + 1 }, child := .null }
    else netifNextNeighbour again c iface
  | _ => .error .assert

/-- `_netif_node_getnext_child` with at most `d` nested calls. -/
def netifGetnextChildDepth (env : Env) : Nat → Cursor → Res Cursor
  | 0, _ => .error .fuel
  | d + 1, c => netifGetnextChildBody env (netifGetnextChildDepth env d) c

/-- `_netif_node_getnext_child`. The recursive call makes no further one. -/
def netifNodeGetnextChild (env : Env) (c : Cursor) : Res Cursor := netifGetnextChildDepth env 2 c

/-- `_netif_node_getnext`. `next` is the old value of the output variable. -/
def netifNodeGetnext (env : Env) (iface : Option Nat) (level : NetifLevel) (next : DbNode) :
    DbNode :=
  match level with
  | .root => .null
  | .iface => if iface ≠ none then netifNodeInit (env.netifIter iface) .field else .null
  | .neighbour => if iface ≠ none then netifNodeInit (env.netifIter iface) .neighbour else next
  | .field | .qos => if iface ≠ none then netifNodeInit (env.netifIter iface) .field else .null

/-- `_netif_node_gettype` -/
def netifNodeGettype (g : Globals) (level : NetifLevel) : DbNodeType :=
  if level = .root then .inner
  else if level = .iface then .inner
  else if g.netifFieldCount = 0 ∨ g.netifFieldCount = 3 then .int
  else if level = .field ∧ g.netifFieldCount = 1 then .str
  else if level = .field ∧ g.netifFieldCount = 2 then .str
  else if level = .field ∧ g.netifFieldCount = 4 then .inner
  else if level = .neighbour then .inner
  else if g.netifSubFieldCount = 2 ∨ g.netifSubFieldCount = 3 ∨ g.netifSubFieldCount = 4 then
    .float
  else .str

/-! ## Values -/

/-- Conversion of a `uint32_t` to `int32_t`. -/
def asInt32 (x : UInt32) : Int := x.toInt32.toInt

/-- `x / y` on `float` values that come from integers. -/
def Env.floatDiv (env : Env) (x : Int) (y : Nat) : Rat := env.round (env.round x / y)

/-- `(int32_t) x` -/
def truncRat (x : Rat) : Int := x.num.tdiv x.den

/-- `_netif_get_latency` -/
def netifGetLatency (env : Env) (g : Globals) : Res Rat := do
  let lat := asInt32 (← readSubField g.neighbours g.netifSubFieldCount g.numNeighbours)
  return env.floatDiv lat 2000

/-- `_netif_get_packetloss`, and `_netif_get_throughput`, which is the same function. -/
def netifGetPacketloss (env : Env) (g : Globals) : Res Rat := do
  let val := asInt32 (← readSubField g.neighbours g.netifSubFieldCount g.numNeighbours)
  return env.round val

/-- `_netif_get_throughput` -/
def netifGetThroughput (env : Env) (g : Globals) : Res Rat := netifGetPacketloss env g

/-- `_netif_node_getfloat_value` -/
def netifNodeGetfloatValue (env : Env) (g : Globals) (iface : Option Nat) : Res CFloat := do
  assert iface.isSome
  if g.netifSubFieldCount = 2 then
    return some (env.round (truncRat (← netifGetLatency env g)))
  else if g.netifSubFieldCount = 3 then
    return some (env.round (truncRat (← netifGetPacketloss env g)))
  else if g.netifSubFieldCount = 4 then
    return some (env.round (truncRat (← netifGetThroughput env g)))
  else return some 0

/-- `_netif_get_ipv6_addr` -/
def netifGetIpv6Addr {n : Nat} (env : Env) (iface : Option Nat) (addr : Buf n) :
    Res (Buf n × Nat) := do
  match (← env.iface iface).ipv6Addr with
  | some a =>
    let text := env.ipv6AddrToStr a
    return (← inBounds (addr.strcpy text), text.length)
  | none => return (← inBounds (addr.store (List.replicate ipv6AddrMaxStrLen nul)), 0)

/-- `_netif_get_link_type` -/
def netifGetLinkType {n : Nat} (env : Env) (iface : Option Nat) (link : Buf n) :
    Res (Buf n × Nat) := do
  let text : CString := .lit (if (← env.iface iface).isWired = 1 then "wired" else "wireless")
  return (← inBounds (link.strcpy text), text.length)

/-- `_netif_node_getsize` -/
def netifNodeGetsize (env : Env) (g : Globals) (iface : Option Nat) (level : NetifLevel) :
    Res Nat := do
  if level = .root then return 2
  else if level = .iface then return 2
  else if level = .field ∧ g.netifFieldCount = 2 then return 4
  else if level = .qos ∧ g.netifSubFieldCount < qosCount then return 4
  else return (← netifGetIpv6Addr env iface (Buf.zero ipv6AddrMaxStrLen)).2

/-- `_netif_node_getstr_value`. The text of an address is measured in the array it was put in. -/
def netifNodeGetstrValue {n : Nat} (env : Env) (g : Globals) (iface : Option Nat)
    (value : Buf n) : Res (Buf n × Nat) := do
  assert iface.isSome
  if g.netifFieldCount = 1 then netifGetIpv6Addr env iface value
  else if g.netifFieldCount = 2 then netifGetLinkType env iface value
  else if g.netifSubFieldCount = 1 then
    let value ← netifGetIp env g value
    return (value, ← inBounds value.strlen)
  else return (value, 88)

/-- One step of the loop over the neighbour cache in `_netif_node_getint_value`. -/
def countNeighbour (g : Globals) (ip : Ipv6Addr) : Globals :=
  { g with numNeighbours := g.numNeighbours + 1, neighbours := netifNodeAddList g.neighbours ip }

/-- `_netif_node_getint_value`. Reading `num_neighbours` fills the neighbour list. -/
def netifNodeGetintValue (env : Env) (g : Globals) (iface : Option Nat) : Res (Globals × Int) := do
  if g.netifFieldCount = 0 then return (g, (← env.iface iface).id)
  else if g.netifFieldCount = 3 then
    let id := (← env.iface iface).id
    let g := (env.nibNc id).foldl countNeighbour { g with numNeighbours := 0 }
    return (g, g.numNeighbours.toNat)
  else return (g, -1)

end Dca
