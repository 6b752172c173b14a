import Dca.Lib.Run
import Dca.Db.Types

/-!
# The server of `udp_throughput.c`

`_udp_server_thread` as a machine. Its steps are what a call of `sock_udp_recv` returns, with the
clock readings behind it, and the end of `xtimer_usleep`. Between two steps the thread is inside
one of these calls, has left its loop, or was stopped by undefined behaviour.
-/

namespace Dca

open CLib

/-- `sock_udp_ep_t` -/
structure SockUdpEp where
  addr : Ipv6Addr
  port : UInt16
  deriving DecidableEq

/-- What the code relies on of the sockets of RIOT and of the platform. -/
class Riot where
  /-- What `sock_udp_recv` copies of a datagram into a buffer of `maxLen` bytes, unless it fails. -/
  sockUdpRecv (maxLen : Nat) (payload : List UInt8) : Option (List UInt8)
  /-- A datagram that fits is received whole. -/
  sockUdpRecv_fits {maxLen : Nat} {payload : List UInt8} (h : payload.length ≤ maxLen) :
    sockUdpRecv maxLen payload = some payload
  /-- One that does not fit gives `-ENOBUFS`. -/
  sockUdpRecv_enobufs {maxLen : Nat} {payload : List UInt8} (h : maxLen < payload.length) :
    sockUdpRecv maxLen payload = none
  /-- The size of a pointer. -/
  sizeofPointer : Nat
  /-- Pointers have 32 or 64 bits. -/
  sizeofPointer_eq : sizeofPointer = 4 ∨ sizeofPointer = 8

/-- A board with pointers of 32 bits. -/
@[reducible] def gnrcSock : Riot where
  sockUdpRecv maxLen payload := if payload.length ≤ maxLen then some payload else none
  sockUdpRecv_fits h := if_pos h
  sockUdpRecv_enobufs h := if_neg (Nat.not_le.mpr h)
  sizeofPointer := 4
  sizeofPointer_eq := Or.inl rfl

/-! ## `_udp_data` -/

/-- `_udp_data`, with the byte of padding in front of `throughput`. -/
structure UdpData where
  id : UInt8
  packetCount : UInt8
  packetSize : UInt8
  pad : UInt8
  throughput : UInt32
  deriving DecidableEq

/-- `sizeof(_udp_data)` -/
abbrev sizeofUdpData : Nat := 8

/-- `START_TEST` -/
def startTest : UInt8 := 0

/-- `TEST_ACK` -/
def testAck : UInt8 := 3

/-- `SUCCESS` -/
def success : UInt8 := 4

/-- `PACKET_TIMEOUT` -/
def packetTimeout : UInt32 := 1000000

/-- Byte `k` of a `uint32_t` in memory, lowest first. -/
def byteOf (n : UInt32) (k : Nat) : UInt8 := UInt8.ofNat (n.toNat / 256 ^ k)

/-- The structure in memory. -/
def UdpData.bytes (d : UdpData) : List UInt8 :=
  [d.id, d.packetCount, d.packetSize, d.pad, byteOf d.throughput 0, byteOf d.throughput 1,
    byteOf d.throughput 2, byteOf d.throughput 3]

/-- The structure that some bytes are. -/
def UdpData.ofBytes (l : List UInt8) : UdpData :=
  let byte := fun k => l.getD k 0
  { id := byte 0, packetCount := byte 1, packetSize := byte 2, pad := byte 3
    throughput := UInt32.ofNat ((byte 4).toNat + 256 * (byte 5).toNat + 256 ^ 2 * (byte 6).toNat
      + 256 ^ 3 * (byte 7).toNat) }

/-- A received payload in the memory of a structure. What it does not reach stays. -/
def UdpData.overwrite (d : UdpData) (payload : List UInt8) : UdpData :=
  .ofBytes (payload ++ d.bytes.drop payload.length)

/-! ## The thread -/

/-- Where the thread is. -/
inductive ServerPc where
  /-- In `sock_udp_recv` of the outer loop. -/
  | outer
  /-- In `sock_udp_recv` of the inner loop, with its `i`. -/
  | inner (i : Nat)
  /-- In `xtimer_usleep(100000)`. -/
  | sleeping
  /-- Behind `return NULL`. -/
  | stopped
  /-- Stopped by a failed precondition or by undefined behaviour. -/
  | trapped (t : Trap)
  deriving DecidableEq

/-- The thread with the variables of the file. -/
structure UdpServer where
  pc : ServerPc
  serverRunning : Bool
  udpPacket : UdpData
  remote : SockUdpEp
  startTimer : UInt32
  endTimer : UInt32
  deriving DecidableEq

/-- What a call returns to the thread. `now` and `stop` are what `xtimer_now_usec` returns for
`start_timer` and `end_timer` when the thread comes there. -/
inductive ServerEvent where
  /-- `sock_udp_recv` sees a datagram. -/
  | datagram (src : SockUdpEp) (payload : List UInt8) (now stop : UInt32)
  /-- `sock_udp_recv` fails without one. -/
  | error (stop : UInt32)
  /-- `xtimer_usleep` returns. -/
  | wake

section Thread

variable [Riot]

namespace UdpServer

/-- `(packet_size * i * US_PER_SEC) / (end_timer - start_timer)` -/
def rate (packetSize : UInt8) (i : Nat) (elapsed : UInt32) : UInt32 :=
  packetSize.toUInt32 * UInt32.ofNat i * usPerSec / elapsed

/-- `end_timer` after `i` packets. -/
def stopTime (s : UdpServer) (i : Nat) (stop : UInt32) : UInt32 :=
  if i < s.udpPacket.packetCount.toNat then stop - 100 - packetTimeout else stop - 100

/-- From the inner loop to `xtimer_usleep`. -/
def endTest (s : UdpServer) (i : Nat) (stop : UInt32) : UdpServer :=
  let endTimer := s.stopTime i stop
  let elapsed := endTimer - s.startTimer
  if elapsed = 0 then { s with endTimer, pc := .trapped .divZero }
  else { s with
    endTimer, pc := .sleeping
    udpPacket := { s.udpPacket with throughput := rate s.udpPacket.packetSize i elapsed } }

/-- From the test of the inner loop to the next call. A buffer without bytes is not allowed for
`sock_udp_recv`. -/
def innerLoop (s : UdpServer) (i : Nat) (stop : UInt32) : UdpServer :=
  if i < s.udpPacket.packetCount.toNat then
    if s.udpPacket.packetSize = 0 then { s with pc := .trapped .assert }
    else { s with pc := .inner i }
  else s.endTest i stop

/-- A datagram in the outer loop, with what is sent. -/
def request (s : UdpServer) (src : SockUdpEp) (payload : List UInt8) (stop : UInt32) :
    UdpServer × List (SockUdpEp × UdpData) :=
  let s := { s with remote := src }
  match Riot.sockUdpRecv sizeofUdpData payload with
  | none => (s, [])
  | some [] => (s, [])
  | some payload =>
    let s := { s with udpPacket := s.udpPacket.overwrite payload }
    if s.udpPacket.id = startTest then
      let s := { s with udpPacket := { s.udpPacket with id := testAck } }
      (s.innerLoop 0 stop, [(s.remote, s.udpPacket)])
    else ({ s with pc := .stopped }, [])

/-- A datagram in the inner loop. -/
def data (s : UdpServer) (i : Nat) (src : SockUdpEp) (payload : List UInt8) (now stop : UInt32) :
    UdpServer :=
  let s := { s with remote := src }
  match Riot.sockUdpRecv s.udpPacket.packetSize.toNat payload with
  | none => s.endTest i stop
  | some _ => { s with startTimer := if i = 0 then now else s.startTimer }.innerLoop (i + 1) stop

/-- The thread from one call to the next, with what it sends on the way. -/
def step (s : UdpServer) (e : ServerEvent) : UdpServer × List (SockUdpEp × UdpData) :=
  match s.pc, e with
  | .outer, .datagram src payload _ stop => s.request src payload stop
  | .inner i, .datagram src payload now stop => (s.data i src payload now stop, [])
  | .inner i, .error stop => (s.endTest i stop, [])
  | .sleeping, .wake =>
    let s := { s with pc := .outer, udpPacket := { s.udpPacket with id := success } }
    (s, [(s.remote, s.udpPacket)])
  -- in the outer loop an error is skipped, and other calls do not return in these ways
  | _, _ => (s, [])

/-- `_udp_server_thread` up to its loop. `junk` is what the block for `udp_packet` holds. -/
def thread (s : UdpServer) (sockUdpCreate : Bool) (junk : UdpData) : UdpServer :=
  if sockUdpCreate then
    { s with pc := .outer, serverRunning := true, udpPacket := junk, remote := ⟨0, 0⟩ }
  else { s with pc := .stopped }

/-- `db_start_udp_server`. The new thread has a higher priority and runs up to its first receive. -/
def dbStartUdpServer (s : UdpServer) (threadCreate sockUdpCreate : Bool) (junk : UdpData) :
    UdpServer × Int :=
  if s.serverRunning = false then
    if threadCreate then (s.thread sockUdpCreate junk, 0) else (s, -1)
  else (s, 0)

/-- The thread after some events. -/
def serve (s : UdpServer) (events : List ServerEvent) : UdpServer :=
  events.foldl (fun s e => (s.step e).1) s

end UdpServer

/-! ## Steps -/

theorem step_outer {s : UdpServer} (hpc : s.pc = .outer) (src : SockUdpEp) (payload : List UInt8)
    (now stop : UInt32) :
    s.step (.datagram src payload now stop) = s.request src payload stop := by
  unfold UdpServer.step
  rw [hpc]

theorem step_inner {s : UdpServer} {i : Nat} (hpc : s.pc = .inner i) (src : SockUdpEp)
    (payload : List UInt8) (now stop : UInt32) :
    s.step (.datagram src payload now stop) = (s.data i src payload now stop, []) := by
  unfold UdpServer.step
  rw [hpc]

end Thread

namespace UdpServer

theorem toNat_rate {packetSize : UInt8} {i : Nat} (hi : i < 256)
    (h : packetSize.toNat * i * usPerSec.toNat < 2 ^ 32) (elapsed : UInt32) :
    (rate packetSize i elapsed).toNat = packetSize.toNat * i * usPerSec.toNat / elapsed.toNat := by
  have hi' : (UInt32.ofNat i).toNat = i := by
    rw [UInt32.toNat_ofNat']
    omega
  have hbytes : packetSize.toNat * i < 2 ^ 32 := by
    refine Nat.lt_of_le_of_lt ?_ h
    exact Nat.le_mul_of_pos_right _ (by decide)
  rw [rate, UInt32.toNat_div, UInt32.toNat_mul, UInt32.toNat_mul, hi', UInt8.toNat_toUInt32,
    Nat.mod_eq_of_lt hbytes, Nat.mod_eq_of_lt h]

end UdpServer

/-! ## Bytes -/

/-- **Eight received bytes are the structure that was sent.** -/
theorem ofBytes_bytes (d : UdpData) : UdpData.ofBytes d.bytes = d := by
  obtain ⟨id, packetCount, packetSize, pad, throughput⟩ := d
  have hlt := throughput.toNat_lt
  have hsum : throughput.toNat / 256 ^ 0 % 256 + 256 * (throughput.toNat / 256 ^ 1 % 256)
      + 256 ^ 2 * (throughput.toNat / 256 ^ 2 % 256) + 256 ^ 3 * (throughput.toNat / 256 ^ 3 % 256)
      = throughput.toNat := by
    omega
  simp only [UdpData.ofBytes, UdpData.bytes, byteOf, List.getD_cons_zero, List.getD_cons_succ,
    UInt8.toNat_ofNat']
  rw [hsum, UInt32.ofNat_toNat]

theorem overwrite_bytes (d d' : UdpData) : d.overwrite d'.bytes = d' := by
  have hdrop : d.bytes.drop d'.bytes.length = [] := rfl
  rw [UdpData.overwrite, hdrop, List.append_nil, ofBytes_bytes]

end Dca
