import Dca.Neighbour.Entries
import Dca.Throughput.Server

/-!
# The server, its clients and the network

`db_measure_network_throughput` as a machine for one client, and the system of the server, any
number of clients and the datagrams between them. A datagram that has been sent can be delivered
at any later time, any number of times or never, so that every loss, delay, reordering and
duplication is a run. Only the rounds of the clients for this server are in the system: a round
for another neighbour has another socket.
-/

namespace Dca

open CLib

/-- `UDP_PACKET_COUNT` -/
def udpPacketCount : UInt8 := 3

/-- `UDP_PACKET_SIZE` -/
def udpPacketSize : UInt8 := 128

/-- A datagram of a client. -/
structure ClientDatagram where
  src : SockUdpEp
  payload : List UInt8
  /-- Not in the datagram: the run in which the client sent it. -/
  run : Nat
  /-- Not in the datagram: whether it is one of the packets of the test. -/
  isData : Bool
  deriving DecidableEq

/-- Not a variable: a test of the server, with the request that opened it, the datagrams that it has
counted as packets, each with the clock behind its receive, and the clock behind its last receive. -/
structure UdpTest where
  request : ClientDatagram
  counted : List (ClientDatagram × UInt32)
  stop : UInt32
  deriving DecidableEq

namespace UdpTest

/-- Who has asked for the test. -/
def opener (test : UdpTest) : SockUdpEp := test.request.src

/-- The run that has asked for it. -/
def run (test : UdpTest) : Nat := test.request.run

/-- `packet_count` of the request. -/
def packetCount (test : UdpTest) : UInt8 := test.request.payload.getD 1 0

/-- `packet_size` of the request. -/
def packetSize (test : UdpTest) : UInt8 := test.request.payload.getD 2 0

end UdpTest

/-- A datagram of the server. -/
structure ServerDatagram where
  dst : SockUdpEp
  packet : UdpData
  /-- Not in the datagram: the run that `dst` was in when it was sent. -/
  run : Nat
  /-- Not in the datagram: the test that it belongs to. -/
  test : Option UdpTest
  deriving DecidableEq

/-- Where a client is. -/
inductive ClientPc where
  /-- Between two rounds. -/
  | idle
  /-- In the first `sock_udp_recv`. -/
  | awaitAck
  /-- Before `sock_udp_send` of packet `i`. -/
  | sending (i : Nat)
  /-- In the second `sock_udp_recv`. -/
  | awaitResult
  /-- At the label `finish`. -/
  | finishing
  deriving DecidableEq

/-- A client in a round of `db_measure_network_throughput`. -/
structure UdpClient where
  pc : ClientPc
  udpPacket : UdpData
  /-- `node->throughput` -/
  throughput : UInt32
  neighbours : List NeighborEntryl
  /-- Not a variable: the number of rounds so far. -/
  run : Nat
  /-- Not a variable: the test that `throughput` is the result of. -/
  source : Option UdpTest

/-- The server, the clients and everything that has been sent. -/
structure UdpSystem where
  server : UdpServer
  /-- Not a variable: the test that the server is in. -/
  test : Option UdpTest
  clients : SockUdpEp → UdpClient
  toServer : List ClientDatagram
  toClients : List ServerDatagram

/-- A step of the server or of the client at `c`. -/
inductive UdpEvent where
  /-- The server receives datagram `k`. -/
  | serverRecv (k : Nat) (now stop : UInt32)
  /-- A receive of the server fails. -/
  | serverError (stop : UInt32)
  /-- The server has slept, and sends the result. -/
  | serverWake
  /-- A round begins. `pad` is what the new block holds in the padding. -/
  | start (c : SockUdpEp) (pad : UInt8) (sockUdpSend : Bool)
  /-- The client receives datagram `k`. -/
  | clientRecv (c : SockUdpEp) (k : Nat)
  /-- The client sends a packet of the test. -/
  | clientSend (c : SockUdpEp) (payload : List UInt8)
  /-- A receive or a send of the client fails. -/
  | clientError (c : SockUdpEp)
  /-- The client stores the result and closes its socket. -/
  | clientStore (c : SockUdpEp)

/-! ## The client -/

namespace UdpClient

/-- Up to the first `sock_udp_recv`. -/
def start (x : UdpClient) (pad : UInt8) (sockUdpSend : Bool) : UdpClient :=
  { x with
    pc := if sockUdpSend then .awaitAck else .finishing
    udpPacket := ⟨startTest, udpPacketCount, udpPacketSize, pad, 0⟩
    throughput := 0, run := x.run + 1, source := none }

/-- From the test of the loop over the packets to the next call. -/
def sendLoop (x : UdpClient) (i : Nat) : UdpClient :=
  { x with pc := if i < x.udpPacket.packetCount.toNat then .sending i else .awaitResult }

/-- A datagram in one of the two calls of `sock_udp_recv`. -/
def recv (x : UdpClient) (r : ServerDatagram) : Option UdpClient :=
  let y := { x with udpPacket := x.udpPacket.overwrite r.packet.bytes }
  match x.pc with
  | .awaitAck =>
    some (if y.udpPacket.id = testAck then y.sendLoop 0 else { y with pc := .finishing })
  | .awaitResult =>
    some (if y.udpPacket.id = success then
        { y with pc := .finishing, throughput := y.udpPacket.throughput, source := r.test }
      else { y with pc := .finishing })
  | _ => none

/-- A call that fails goes to `finish`. -/
def fail (x : UdpClient) : Option UdpClient :=
  match x.pc with
  | .awaitAck | .sending _ | .awaitResult => some { x with pc := .finishing }
  | _ => none

/-- From `finish` on. -/
def store (x : UdpClient) (server : Ipv6Addr) : UdpClient :=
  { x with
    pc := .idle
    neighbours := throughputStore x.neighbours
      { addr := server, latency := 0, packetLoss := 0, throughput := x.throughput } }

end UdpClient

/-! ## The system -/

/-- Whether a test is open. -/
def ServerPc.testing : ServerPc → Bool
  | .inner _ | .sleeping => true
  | _ => false

namespace UdpSystem

section Steps

variable [Riot]

/-- The client at `c` becomes `x`. -/
def setClient (y : UdpSystem) (c : SockUdpEp) (x : UdpClient) : UdpSystem :=
  { y with clients := fun c' => if c' = c then x else y.clients c' }

/-- What the server sends, with what it belongs to. -/
def tag (y : UdpSystem) (test : Option UdpTest) (reply : SockUdpEp × UdpData) : ServerDatagram :=
  { dst := reply.1, packet := reply.2, run := (y.clients reply.1).run, test }

/-- The test behind a datagram for the server: a request opens one, and one that is received in the
inner loop is counted. -/
def nextTest (y : UdpSystem) (d : ClientDatagram) (now stop : UInt32) : Option UdpTest :=
  match y.server.pc with
  | .outer => some ⟨d, [], stop⟩
  | _ =>
    match Riot.sockUdpRecv y.server.udpPacket.packetSize.toNat d.payload with
    | some _ => y.test.map fun test => { test with counted := test.counted ++ [(d, now)], stop }
    | none => y.test.map fun test => { test with stop }

/-- The test behind a receive that fails. -/
def failedTest (y : UdpSystem) (stop : UInt32) : Option UdpTest :=
  match y.server.pc with
  | .inner _ => y.test.map fun test => { test with stop }
  | _ => y.test

/-- A step of the server in a test, if one is open behind it. -/
def serverStep (y : UdpSystem) (e : ServerEvent) (test : Option UdpTest) : UdpSystem :=
  let next := y.server.step e
  { y with
    server := next.1
    test := if next.1.pc.testing then test else none
    toClients := y.toClients ++ next.2.map (y.tag test) }

/-- One step, if it is possible. -/
def step (addr : Ipv6Addr) (y : UdpSystem) : UdpEvent → Option UdpSystem
  | .serverRecv k now stop =>
    match y.server.pc, y.toServer[k]? with
    | .outer, some d | .inner _, some d =>
      some (y.serverStep (.datagram d.src d.payload now stop) (y.nextTest d now stop))
    | _, _ => none
  | .serverError stop => some (y.serverStep (.error stop) (y.failedTest stop))
  | .serverWake => some (y.serverStep .wake y.test)
  | .start c pad sockUdpSend =>
    if (y.clients c).pc = .idle then
      let x := (y.clients c).start pad sockUdpSend
      let d : ClientDatagram :=
        { src := c, payload := x.udpPacket.bytes.take Riot.sizeofPointer, run := x.run, isData := false }
      let toServer := if sockUdpSend then y.toServer ++ [d] else y.toServer
      some ({ y with toServer }.setClient c x)
    else none
  | .clientRecv c k =>
    match y.toClients[k]? with
    | some r => if r.dst = c then ((y.clients c).recv r).map (y.setClient c) else none
    | none => none
  | .clientSend c payload =>
    match (y.clients c).pc with
    | .sending i =>
      if payload.length = udpPacketSize.toNat then
        let d : ClientDatagram := { src := c, payload, run := (y.clients c).run, isData := true }
        let x := (y.clients c).sendLoop (i + 1)
        some ({ y with toServer := y.toServer ++ [d] }.setClient c x)
      else none
    | _ => none
  | .clientError c => (y.clients c).fail.map (y.setClient c)
  | .clientStore c =>
    if (y.clients c).pc = .finishing then some (y.setClient c ((y.clients c).store addr)) else none

end Steps

/-- The server in its loop, the clients before their first round. -/
def boot (server : UdpServer) (junk : UdpData) (neighbours : SockUdpEp → List NeighborEntryl) :
    UdpSystem :=
  { server := server.thread true junk
    test := none
    clients := fun c => ⟨.idle, ⟨0, 0, 0, 0, 0⟩, 0, neighbours c, 0, none⟩
    toServer := []
    toClients := [] }

end UdpSystem

end Dca
