import Dca.Neighbour.Entries

/-!
# One ping run: the functions of `latency.c`

`_configure`, `_pinger`, `_handle_reply`, `_print_reply` and `_finish` as functions on the ping
data. `unsigned` and `unsigned long` have 32 bits. What a function asks the network stack and the
clock for is an argument of it. The network thread and the message queue are in
`Dca/Latency/Measure.lean`.
-/

namespace Dca

open CLib

/-- The functions of RIOT on addresses that `latency.c` calls. -/
class NetIpv6Addr where
  ipv6AddrIsMulticast : Ipv6Addr → Bool
  /-- The addresses of `ff00::/8`. -/
  isMulticast_iff (a : Ipv6Addr) : ipv6AddrIsMulticast a = true ↔ a >>> 120 = 0xff
  ipv6AddrSplitIface : List Char → List Char × Option (List Char)
  /-- An address without an interface. -/
  splitIface_none {s : List Char} (h : '%' ∉ s) : ipv6AddrSplitIface s = (s, none)
  /-- The interface stands behind the first `%`. -/
  splitIface_some {addr : List Char} (h : '%' ∉ addr) (iface : List Char) :
    ipv6AddrSplitIface (addr ++ '%' :: iface) = (addr, some iface)

export NetIpv6Addr (ipv6AddrIsMulticast ipv6AddrSplitIface)

/-- What the two functions do, spelled out. -/
@[reducible] def gnrcIpv6Addr : NetIpv6Addr where
  ipv6AddrIsMulticast a := a >>> 120 = 0xff
  isMulticast_iff a := decide_eq_true_iff
  ipv6AddrSplitIface s :=
    (s.takeWhile (· != '%'), match s.dropWhile (· != '%') with
      | [] => none
      | _ :: iface => some iface)
  splitIface_none h := by
    have hall : ∀ c ∈ _, (c != '%') = true := fun c hc => bne_iff_ne.mpr fun heq => h (heq ▸ hc)
    rw [List.takeWhile_eq_self_iff.mpr hall, List.dropWhile_eq_nil_iff.mpr hall]
  splitIface_some h iface := by
    have hall : ∀ c ∈ _, (c != '%') = true := fun c hc => bne_iff_ne.mpr fun heq => h (heq ▸ hc)
    rw [List.takeWhile_append_of_pos hall, List.dropWhile_append_of_pos hall]
    simp

/-! ## Packets -/

/-- An ICMPv6 header as `icmpv6_echo_t`, in host byte order, with the size of the snip and the
first four bytes behind the header. -/
structure Icmpv6Snip where
  size : Nat
  type : UInt8
  id : UInt16
  seq : UInt16
  stamp : UInt32
  deriving DecidableEq

/-- `gnrc_pktsnip_t`: one layer of a received packet. -/
inductive Pktsnip where
  | ipv6 (src : Ipv6Addr)
  | icmpv6 (icmpv6 : Icmpv6Snip)
  | other
  deriving DecidableEq

/-- A packet, innermost layer first. -/
abbrev Packet := List Pktsnip

/-- `gnrc_pktsnip_search_type(pkt, GNRC_NETTYPE_IPV6)`, with the source address. -/
def searchIpv6 (pkt : Packet) : Option Ipv6Addr :=
  pkt.findSome? fun snip => match snip with | .ipv6 src => some src | _ => none

/-- `gnrc_pktsnip_search_type(pkt, GNRC_NETTYPE_ICMPV6)` -/
def searchIcmpv6 (pkt : Packet) : Option Icmpv6Snip :=
  pkt.findSome? fun snip => match snip with | .icmpv6 icmpv6 => some icmpv6 | _ => none

/-- `ICMPV6_ECHO_REP` -/
def icmpv6EchoRep : UInt8 := 129

/-- `sizeof(icmpv6_echo_t)` -/
def sizeofIcmpv6Echo : Nat := 8

/-- The echo request that goes out. -/
structure EchoRequest where
  dst : Ipv6Addr
  hl : UInt8
  netif : Option Nat
  id : UInt16
  seq : UInt16
  datalen : Nat
  pattern : UInt8
  stamp : Option UInt32
  deriving DecidableEq

/-! ## Ping data -/

/-- `CKTAB_SIZE` -/
abbrev cktabSize : Nat := 512

/-- `UINT_MAX` -/
def uintMax : UInt32 := 0xffffffff

/-- `_ping_data_t`, initialised as in `db_measure_network_latency`. The timer and its message are
part of the thread. -/
structure PingData where
  host : Ipv6Addr := 0
  numSent : UInt32 := 0
  numRecv : UInt32 := 0
  numRept : UInt32 := 0
  tsum : UInt64 := 0
  tmin : UInt32 := uintMax
  tmax : UInt32 := 0
  count : UInt32
  datalen : Nat := 4
  cktab : Fin cktabSize → Bool := fun _ => false
  timeout : UInt32 := 1 * usPerSec
  interval : UInt32 := 1 * usPerSec
  netif : Option Nat := none
  id : UInt16 := 0x53
  hoplimit : UInt8 := 0
  pattern : UInt8 := 0x53

/-- `DEFAULT_COUNT` -/
def defaultCount : UInt32 := 3

/-- The slot of a sequence number in `cktab`. -/
def cktabSlot (n : Nat) : Fin cktabSize := ⟨n % cktabSize, Nat.mod_lt n (by decide)⟩

/-- `bf_set` -/
def bfSet (cktab : Fin cktabSize → Bool) (i : Fin cktabSize) : Fin cktabSize → Bool :=
  fun j => if j = i then true else cktab j

/-- `bf_unset` -/
def bfUnset (cktab : Fin cktabSize → Bool) (i : Fin cktabSize) : Fin cktabSize → Bool :=
  fun j => if j = i then false else cktab j

/-! ## `_configure` -/

/-- What `_configure` asks the network stack and the clock. -/
structure NetConfig where
  ipv6AddrToStr : Ipv6Addr → CString
  ipv6AddrFromStr : List Char → Option Ipv6Addr
  /-- `gnrc_netif_get_by_pid(atoi(..))` -/
  netifGetByPid : List Char → Option Nat
  gnrcNetifIter : Option Nat → Option Nat
  gnrcNetifHighlander : Bool
  now : UInt32

/-- `_netif_get`, with the interface it leaves in `*current_netif`. -/
def netifGet (cfg : NetConfig) (currentNetif : Option Nat) : Option Nat × Bool :=
  let netif := cfg.gnrcNetifIter currentNetif
  (netif, !cfg.gnrcNetifHighlander && (cfg.gnrcNetifIter netif).isSome)

/-- `_configure`. When it does not return 0 the data is not used any more. -/
def configure [NetIpv6Addr] (cfg : NetConfig) (neigh : Ipv6Addr) (data : PingData) :
    Option PingData :=
  let (hostname, iface) := ipv6AddrSplitIface (cfg.ipv6AddrToStr neigh).chars
  let netif := match iface with
    | some iface => cfg.netifGetByPid iface
    | none =>
      let (netif, more) := netifGet cfg data.netif
      -- with more than one interface none is taken
      if more then none else netif
  match cfg.ipv6AddrFromStr hostname with
  | none => none
  | some host => some { data with netif, host, id := data.id ^^^ cfg.now.toUInt16 }

/-! ## `_pinger` -/

/-- `_SEND_NEXT_PING` and `_PING_FINISH` -/
inductive TimerMsg where
  | sendNextPing | pingFinish
  deriving DecidableEq

/-- The next event, and in how many microseconds it is due. -/
def PingData.schedule (data : PingData) : TimerMsg × UInt32 :=
  if data.numSent + 1 < data.count then (.sendNextPing, data.interval)
  else if data.numRecv ≠ 0 then
    let timer := (data.tmax / (512 * 1024)) * usPerSec
    (.pingFinish, if timer = 0 then 1 * usPerSec else timer)
  else (.pingFinish, data.timeout)

/-- Which steps of building and sending the request find memory and a receiver. -/
structure SendEnv where
  echoBuild : Bool
  ipv6HdrBuild : Bool
  netifHdrBuild : Bool
  dispatchSend : Bool
  now : UInt32
  deriving DecidableEq

/-- The request that `_pinger` sends, if it gets that far. -/
def PingData.request (data : PingData) (env : SendEnv) : Option EchoRequest :=
  if env.echoBuild && env.ipv6HdrBuild && (data.netif.isNone || env.netifHdrBuild)
      && env.dispatchSend then
    some {
      dst := data.host
      hl := data.hoplimit
      netif := data.netif
      id := data.id
      seq := data.numSent.toUInt16
      datalen := data.datalen
      pattern := data.pattern
      stamp := if 4 ≤ data.datalen then some env.now else none }
  else none

/-- `_pinger`: the data behind it. The event it schedules and the request it sends are those of
the data before it. -/
def pinger (data : PingData) : PingData :=
  { data with
    cktab := bfUnset data.cktab (cktabSlot data.numSent.toNat)
    numSent := data.numSent + 1 }

/-! ## Replies -/

/-- The checks of `_print_reply`: size, type, id and source. -/
def PingData.accepts [NetIpv6Addr] (data : PingData) (icmpv6 : Icmpv6Snip) (src : Ipv6Addr) :
    Bool :=
  data.datalen + sizeofIcmpv6Echo ≤ icmpv6.size && icmpv6.type = icmpv6EchoRep
    && icmpv6.id = data.id && (ipv6AddrIsMulticast data.host || src = data.host)

/-- The round trip time of a reply. -/
def PingData.addTriptime (data : PingData) (icmpv6 : Icmpv6Snip) (now : UInt32) : PingData :=
  if 4 ≤ data.datalen then
    let triptime := now - icmpv6.stamp
    { data with
      tsum := data.tsum + triptime.toUInt64
      tmin := if triptime < data.tmin then triptime else data.tmin
      tmax := if data.tmax < triptime then triptime else data.tmax }
  else data

/-- The duplicate detection of `_print_reply`. -/
def PingData.countReply (data : PingData) (seq : UInt16) : PingData :=
  if data.cktab (cktabSlot seq.toNat) then { data with numRept := data.numRept + 1 }
  else { data with
    cktab := bfSet data.cktab (cktabSlot seq.toNat)
    numRecv := data.numRecv + 1 }

/-- `_print_reply` -/
def printReply [NetIpv6Addr] (data : PingData) (icmpv6 : Icmpv6Snip) (src : Ipv6Addr)
    (now : UInt32) : PingData :=
  if data.accepts icmpv6 src then (data.addTriptime icmpv6 now).countReply icmpv6.seq else data

/-- `_handle_reply` -/
def handleReply [NetIpv6Addr] (data : PingData) (pkt : Packet) (now : UInt32) : PingData :=
  match searchIpv6 pkt, searchIcmpv6 pkt with
  | some src, some icmpv6 => printReply data icmpv6 src now
  | _, _ => data

/-- The reply in a packet that passes the checks. -/
def PingData.acceptedReply [NetIpv6Addr] (data : PingData) (pkt : Packet) : Option Icmpv6Snip :=
  match searchIpv6 pkt, searchIcmpv6 pkt with
  | some src, some icmpv6 => if data.accepts icmpv6 src then some icmpv6 else none
  | _, _ => none

/-! ## `_finish` -/

/-- The packet loss in percent. -/
def PingData.loss (data : PingData) : UInt32 :=
  if 0 < data.numSent then (data.numSent - data.numRecv) * 100 / data.numSent else 0

/-- The average round trip time. -/
def PingData.tavg (data : PingData) : Res UInt32 :=
  if data.tmin ≠ uintMax then
    if data.numRecv + data.numRept = 0 then .error .divZero
    else .ok (data.tsum / (data.numRecv + data.numRept).toUInt64).toUInt32
  else .ok 0

/-- The record that `_finish` fills in. -/
def finishRecord (data : PingData) : Res NeighborEntryl := do
  return { addr := data.host, latency := ← data.tavg, packetLoss := data.loss, throughput := 0 }

/-- `_finish`, with its return value. -/
def finish (data : PingData) (l : List NeighborEntryl) : Res (List NeighborEntryl × Nat) := do
  return (finishStore l (← finishRecord data), if data.numRecv = 0 then 1 else 0)

theorem finishRecord_packetLoss {data : PingData} {node : NeighborEntryl}
    (h : finishRecord data = .ok node) : node.packetLoss = data.loss := by
  obtain ⟨latency, -, h⟩ := bind_eq_ok.mp h
  obtain rfl := Except.ok.inj h
  rfl

/-! ## What the functions change -/

/-- **A packet changes the data through an accepted reply alone.** -/
theorem handleReply_eq [NetIpv6Addr] (data : PingData) (pkt : Packet) (now : UInt32) :
    handleReply data pkt now = match data.acceptedReply pkt with
      | some icmpv6 => (data.addTriptime icmpv6 now).countReply icmpv6.seq
      | none => data := by
  unfold handleReply PingData.acceptedReply
  cases searchIpv6 pkt with
  | none => rfl
  | some src =>
    cases searchIcmpv6 pkt with
    | none => rfl
    | some icmpv6 =>
      dsimp only [printReply]
      split_ifs
      · rfl
      · rfl

/-- What the duplicate detection works on. -/
structure Tally where
  numSent : UInt32
  numRecv : UInt32
  numRept : UInt32
  count : UInt32
  cktab : Fin cktabSize → Bool

def PingData.tally (data : PingData) : Tally :=
  ⟨data.numSent, data.numRecv, data.numRept, data.count, data.cktab⟩

@[simp] theorem tally_addTriptime (data : PingData) (icmpv6 : Icmpv6Snip) (now : UInt32) :
    (data.addTriptime icmpv6 now).tally = data.tally := by
  unfold PingData.addTriptime
  split_ifs
  · rfl
  · rfl

/-- A packet leaves alone what a ping counts. -/
theorem handleReply_frame [NetIpv6Addr] (data : PingData) (pkt : Packet) (now : UInt32) :
    (handleReply data pkt now).numSent = data.numSent ∧
      (handleReply data pkt now).count = data.count := by
  rw [handleReply_eq]
  cases data.acceptedReply pkt with
  | none => exact ⟨rfl, rfl⟩
  | some icmpv6 =>
    have htally := tally_addTriptime data icmpv6 now
    dsimp only [PingData.countReply]
    split_ifs
    · exact ⟨congrArg Tally.numSent htally, congrArg Tally.count htally⟩
    · exact ⟨congrArg Tally.numSent htally, congrArg Tally.count htally⟩

@[simp] theorem bfSet_self (cktab : Fin cktabSize → Bool) (i : Fin cktabSize) :
    bfSet cktab i i = true := if_pos rfl

theorem bfSet_ne (cktab : Fin cktabSize → Bool) {i j : Fin cktabSize} (h : j ≠ i) :
    bfSet cktab i j = cktab j := if_neg h

@[simp] theorem bfUnset_self (cktab : Fin cktabSize → Bool) (i : Fin cktabSize) :
    bfUnset cktab i i = false := if_pos rfl

theorem bfUnset_ne (cktab : Fin cktabSize → Bool) {i j : Fin cktabSize} (h : j ≠ i) :
    bfUnset cktab i j = cktab j := if_neg h

end Dca
