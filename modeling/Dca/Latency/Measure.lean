import Dca.Lib.Run
import Dca.Db.Index
import Dca.Latency.Ping

/-!
# `db_measure_network_latency` and what happens around it

The thread that runs `db_measure_network_latency`, its message queue and its timer, as a machine.
The steps are those of the thread (the start of a run, one message of the receive loop, the end of
a run, one turn of the cleanup loop) and those of the outside (a packet or another message arrives,
the timer fires), in any order. A run is what happens for one neighbour, and how many there are and
how often the function is called is left open.
-/

namespace Dca

open CLib

/-- A message in the queue of the thread. -/
inductive Msg where
  /-- `GNRC_NETAPI_MSG_TYPE_RCV` -/
  | rcv (pkt : Packet)
  /-- A message of the timer. `firedIn` is not part of it: it is the run in which it fired. -/
  | timer (type : TimerMsg) (firedIn : Nat)
  /-- Any other type. -/
  | other (type : UInt16)
  deriving DecidableEq

/-- Where the thread is. -/
inductive MeasurePc where
  /-- Before the next neighbour, or outside of the function. -/
  | idle
  /-- At `msg_receive`. -/
  | receiving
  /-- At the label `finish`. -/
  | finishing
  /-- In the cleanup loop, with its `i`. -/
  | cleaning (i : Nat)
  deriving DecidableEq

/-- The thread and what it shares with the outside. -/
structure Measure where
  pc : MeasurePc
  data : PingData
  /-- The armed timer: the message it will send and after how many microseconds. -/
  timer : Option (TimerMsg × UInt32)
  queue : List Msg
  neighbours : List NeighborEntryl
  /-- What the function returns. -/
  res : Nat
  /-- The echo requests handed to the network, newest first. -/
  requests : List EchoRequest
  /-- Not a variable: the number of runs so far. -/
  runs : Nat
  /-- Not a variable: the sequence numbers of the pings of this run, newest first. -/
  sent : List UInt16
  /-- Not a variable: the sequence numbers of the accepted replies of this run, newest first. -/
  accepted : List UInt16

/-- The thread before its first run. -/
def Measure.boot (queue : List Msg) (neighbours : List NeighborEntryl) : Measure :=
  { pc := .idle, data := { count := 0 }, timer := none, queue, neighbours, res := 0, requests := [],
    runs := 0, sent := [], accepted := [] }

/-- A step of the thread or of the outside. -/
inductive MeasureEvent where
  /-- The next neighbour: `_configure` and the first `_pinger`. -/
  | start (cfg : NetConfig) (neigh : Ipv6Addr) (env : SendEnv)
  /-- A packet reaches the queue. -/
  | arrive (pkt : Packet)
  /-- Another message reaches the queue. -/
  | message (type : UInt16)
  /-- The timer fires. -/
  | fire
  /-- One turn of the receive loop. -/
  | receive (now : UInt32) (env : SendEnv)
  /-- `xtimer_remove` and `_finish`. -/
  | finish
  /-- One test of the cleanup loop, with its turn. -/
  | cleanup

variable (cap : Nat) (count : UInt32)

/-- `msg_send` and the message of a timer: a queue with `cap` messages drops it. -/
def enqueue (queue : List Msg) (m : Msg) : List Msg :=
  if queue.length < cap then queue ++ [m] else queue

/-- `_pinger`, with the timer and the network. -/
def Measure.ping (s : Measure) (env : SendEnv) : Measure :=
  { s with
    data := pinger s.data
    timer := some s.data.schedule
    requests := (s.data.request env).toList ++ s.requests
    sent := s.data.numSent.toUInt16 :: s.sent }

/-- `_handle_reply` -/
def Measure.reply [NetIpv6Addr] (s : Measure) (pkt : Packet) (now : UInt32) : Measure :=
  { s with
    data := handleReply s.data pkt now
    accepted := ((s.data.acceptedReply pkt).map Icmpv6Snip.seq).toList ++ s.accepted }

/-- The `switch` of the receive loop. -/
def Measure.dispatch [NetIpv6Addr] (s : Measure) (m : Msg) (now : UInt32) (env : SendEnv) :
    Measure :=
  match m with
  | .rcv pkt => s.reply pkt now
  | .timer .sendNextPing _ => s.ping env
  | .timer .pingFinish _ => { s with pc := .finishing }
  | .other type => { s with queue := enqueue cap s.queue (.other type) }

/-- `while (data.num_recv < data.count)` -/
def Measure.loopTest (s : Measure) : Measure :=
  if s.data.numRecv < s.data.count then s else { s with pc := .finishing }

/-- Whether the cleanup loop takes a message out. -/
def Msg.isIcmpv6 : Msg → Bool
  | .rcv (.icmpv6 _ :: _) => true
  | _ => false

/-- One step, if it is possible. -/
def measureStep [NetIpv6Addr] (s : Measure) : MeasureEvent → Option Measure
  | .start cfg neigh env =>
    if s.pc = .idle then
      match configure cfg neigh { count } with
      | none => some { s with res := 1 }
      | some data =>
        some ({ s with
          pc := .receiving, data, runs := s.runs + 1, sent := [], accepted := [] }.ping env)
    else none
  | .arrive pkt => some { s with queue := enqueue cap s.queue (.rcv pkt) }
  | .message type => some { s with queue := enqueue cap s.queue (.other type) }
  | .fire =>
    match s.timer with
    | none => none
    | some (type, _) =>
      some { s with timer := none, queue := enqueue cap s.queue (.timer type s.runs) }
  | .receive now env =>
    if s.pc = .receiving then
      match s.queue with
      | [] => none
      | m :: queue => some ({ s with queue }.dispatch cap m now env).loopTest
    else none
  | .finish =>
    if s.pc = .finishing then
      match finish s.data s.neighbours with
      | .error _ => none
      | .ok (neighbours, res) => some { s with pc := .cleaning 0, timer := none, neighbours, res }
    else none
  | .cleanup =>
    match s.pc with
    | .cleaning i =>
      match s.queue with
      | m :: queue =>
        if i < s.queue.length then
          some { s with
            pc := .cleaning (i + 1)
            queue := if m.isIcmpv6 then queue else enqueue cap queue m }
        else some { s with pc := .idle }
      | [] => some { s with pc := .idle }
    | _ => none

/-! ## A small network -/

/-- The neighbours `fe80::1` and `fe80::2` behind one interface. -/
def smallConfig : NetConfig where
  ipv6AddrToStr := linkLocalText
  ipv6AddrFromStr text :=
    if text = (linkLocalText (linkLocal 1)).chars then some (linkLocal 1)
    else if text = (linkLocalText (linkLocal 2)).chars then some (linkLocal 2)
    else none
  netifGetByPid _ := none
  gnrcNetifIter netif := if netif = none then some 6 else none
  gnrcNetifHighlander := true
  now := 0

/-- A network that takes every packet. -/
def smallSend : SendEnv := ⟨true, true, true, true, 0⟩

/-- An echo reply of the neighbour `fe80::i` with the id of `smallConfig`. -/
def smallReply (i : Nat) (seq : UInt16) : Packet :=
  [.icmpv6 ⟨12, icmpv6EchoRep, 0x53, seq, 0⟩, .ipv6 (linkLocal i), .other]

/-- The packet arrives and is received. -/
def smallEcho (i : Nat) (seq : UInt16) : List MeasureEvent :=
  [.arrive (smallReply i seq), .receive 2000 smallSend]

/-- The timer fires and its message is received. -/
def smallTick : List MeasureEvent := [.fire, .receive 0 smallSend]

end Dca
