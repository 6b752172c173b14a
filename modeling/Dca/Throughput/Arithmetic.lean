import Dca.Throughput.Survival

/-!
# The arithmetic of the throughput server

A result is computed in words of 32 bits from the number of packets and from two clock readings:
the one at the first packet of the test, or of an earlier test where no packet has come, and the
one at the end, from which 100 and for an incomplete test the timeout are subtracted.
-/

namespace Dca

open CLib

namespace UdpServer

/--
A test as it reaches the server: a request, the packets that are received, and where some are
missing the receive that fails. This is an error, or a datagram that is too long (`tooLong`).
-/
structure Arrivals (s : UdpServer) where
  src : SockUdpEp
  payload : List UInt8
  packets : List (SockUdpEp × List UInt8)
  tooLong : Option (SockUdpEp × List UInt8)
  /-- The clock at the first packet. -/
  first : UInt32
  /-- The clock at the end of the test. -/
  stop : UInt32
  received : payload ≠ [] ∧ payload.length ≤ sizeofUdpData
  request : (s.udpPacket.overwrite payload).id = startTest
  count : packets.length ≤ (s.udpPacket.overwrite payload).packetCount.toNat
  fit : ∀ d ∈ packets, d.2.length ≤ (s.udpPacket.overwrite payload).packetSize.toNat
  noFit : ∀ d ∈ tooLong, (s.udpPacket.overwrite payload).packetSize.toNat < d.2.length
  clock : first ≤ stop

namespace Arrivals

variable {s : UdpServer} (a : Arrivals s)

/-- `packet_count` -/
def packetCount : Nat := (s.udpPacket.overwrite a.payload).packetCount.toNat

/-- `packet_size` -/
def packetSize : UInt8 := (s.udpPacket.overwrite a.payload).packetSize

/-- A datagram with the readings of the clock. -/
def datagram (d : SockUdpEp × List UInt8) : ServerEvent := .datagram d.1 d.2 a.first a.stop

/-- The receive that fails. -/
def failure : ServerEvent :=
  match a.tooLong with
  | some d => a.datagram d
  | none => .error a.stop

/-- What `sock_udp_recv` sees. -/
def events : List ServerEvent :=
  a.datagram (a.src, a.payload) :: (a.packets.map a.datagram
    ++ if a.packets.length < a.packetCount then [a.failure] else [])

/-- What is subtracted from the clock at the end. -/
def allowance : Nat := if a.packets.length < a.packetCount then 100 + packetTimeout.toNat else 100

/-- The clock at the first packet, and without packets whatever an earlier test has left. -/
def start : UInt32 := if a.packets = [] then s.startTimer else a.first

end Arrivals

/--
The result of a test is exact: the thread comes to the end of the test, the divisor is the time
that has passed, without a wrap, and positive, the product fits into a word, and the throughput is
the quotient.
-/
structure Exact [Riot] (s : UdpServer) (a : Arrivals s) : Prop where
  ends : (s.serve a.events).pc = .sleeping
  divisor : (((s.serve a.events).endTimer - (s.serve a.events).startTimer).toNat : Int)
    = a.stop.toNat - a.allowance - (s.serve a.events).startTimer.toNat
  nonzero : (s.serve a.events).endTimer - (s.serve a.events).startTimer ≠ 0
  product : a.packetSize.toNat * a.packets.length * usPerSec.toNat < 2 ^ 32
  throughput : (s.serve a.events).udpPacket.throughput.toNat
    = a.packetSize.toNat * a.packets.length * usPerSec.toNat
      / ((s.serve a.events).endTimer - (s.serve a.events).startTimer).toNat

/-- Every test has an exact result. -/
def AllExact : Prop := ∀ [Riot] (s : UdpServer), s.pc = .outer → ∀ a : Arrivals s, Exact s a

/--
A test that can be measured: its packets are not empty, more time has passed than is subtracted,
and at most 4294 bytes have come.
-/
structure Measurable (s : UdpServer) (a : Arrivals s) : Prop where
  size : 0 < a.packetCount → a.packetSize ≠ 0
  time : a.start.toNat + a.allowance < a.stop.toNat
  bytes : a.packetSize.toNat * a.packets.length ≤ 4294

variable {s : UdpServer}

/-! ## Up to the end of a test -/

section Tests

variable [Riot]

/-- The inner loop takes the packets one after the other. -/
theorem serve_packets (a : Arrivals s) (packets : List (SockUdpEp × List UInt8)) {t : UdpServer}
    {i : Nat} (hsize : t.udpPacket.packetSize ≠ 0)
    (hcount : i + packets.length ≤ t.udpPacket.packetCount.toNat)
    (hfit : ∀ d ∈ packets, d.2.length ≤ t.udpPacket.packetSize.toNat) :
    ∃ u : UdpServer, u.udpPacket = t.udpPacket ∧
      u.startTimer = (if i = 0 ∧ packets ≠ [] then a.first else t.startTimer) ∧
        (t.innerLoop i a.stop).serve (packets.map a.datagram)
          = u.innerLoop (i + packets.length) a.stop := by
  induction packets generalizing t i with
  | nil => exact ⟨t, rfl, by simp, rfl⟩
  | cons d packets ih =>
    obtain ⟨hd, hfit⟩ := List.forall_mem_cons.mp hfit
    rw [List.length_cons] at hcount
    have hi : i < t.udpPacket.packetCount.toNat := by omega
    have hloop : t.innerLoop i a.stop = { t with pc := .inner i } := by
      rw [innerLoop, if_pos hi, if_neg hsize]
    -- the datagram fits, so the loop goes on with `i + 1`
    let t' : UdpServer :=
      { t with pc := .inner i, remote := d.1, startTimer := if i = 0 then a.first else t.startTimer }
    have hstep : ((t.innerLoop i a.stop).step (a.datagram d)).1 = t'.innerLoop (i + 1) a.stop := by
      rw [hloop, Arrivals.datagram, Dca.step_inner rfl, data]
      dsimp only
      rw [Riot.sockUdpRecv_fits hd]
    obtain ⟨u, hpacket, htimer, hserve⟩ := ih (t := t') (i := i + 1) hsize
      (show i + 1 + packets.length ≤ t.udpPacket.packetCount.toNat by omega) hfit
    refine ⟨u, hpacket, htimer.trans ?_, ?_⟩
    · have hsucc : ¬ (i + 1 = 0 ∧ packets ≠ []) := fun h => Nat.succ_ne_zero i h.1
      rw [if_neg hsucc]
      simp [t']
    · rw [List.map_cons, serve, List.foldl_cons, hstep]
      refine hserve.trans ?_
      rw [List.length_cons, Nat.add_right_comm, Nat.add_assoc]

/-- The request leads into the inner loop. -/
theorem step_request (hpc : s.pc = .outer) (a : Arrivals s) :
    ∃ t : UdpServer, t.udpPacket.packetSize = a.packetSize ∧
      t.udpPacket.packetCount.toNat = a.packetCount ∧ t.startTimer = s.startTimer ∧
        (s.step (a.datagram (a.src, a.payload))).1 = t.innerLoop 0 a.stop := by
  obtain ⟨hne, hlen⟩ := a.received
  obtain ⟨b, rest, hpayload⟩ := List.exists_cons_of_ne_nil hne
  refine ⟨{ s with
    remote := a.src, udpPacket := { s.udpPacket.overwrite a.payload with id := testAck } },
    rfl, rfl, rfl, ?_⟩
  have hid := a.request
  rw [Arrivals.datagram, step_outer hpc, request, Riot.sockUdpRecv_fits hlen]
  rw [hpayload] at hid ⊢
  dsimp only
  rw [if_pos hid]

/-- Packets of size zero stop the thread at once. -/
theorem serve_empty (hpc : s.pc = .outer) (a : Arrivals s) (hcount : 0 < a.packetCount)
    (hsize : a.packetSize = 0) : ¬ (s.serve a.events).Serving := by
  obtain ⟨t, hpacketSize, hpacketCount, -, hstep⟩ := step_request hpc a
  have htrap : t.innerLoop 0 a.stop = { t with pc := .trapped .assert } := by
    rw [innerLoop, if_pos (hpacketCount ▸ hcount), if_pos (hpacketSize.trans hsize)]
  have hout : ¬ (t.innerLoop 0 a.stop).Serving := by
    rw [htrap]
    exact id
  rw [Arrivals.events, serve, List.foldl_cons, hstep]
  exact fun h => hout (serve_of_not_serving hout _ ▸ h)

/-- **The end of a test**, with the time that it is measured from. -/
theorem serve_arrivals (hpc : s.pc = .outer) (a : Arrivals s)
    (hsize : 0 < a.packetCount → a.packetSize ≠ 0) :
    ∃ u : UdpServer, u.udpPacket.packetSize = a.packetSize ∧
      u.udpPacket.packetCount.toNat = a.packetCount ∧ u.startTimer = a.start ∧
        s.serve a.events = u.endTest a.packets.length a.stop := by
  obtain ⟨t, hpacketSize, hpacketCount, htimer, hstep⟩ := step_request hpc a
  have hle : a.packets.length ≤ a.packetCount := a.count
  have hpackets : ∃ u : UdpServer, u.udpPacket = t.udpPacket ∧ u.startTimer = a.start ∧
      (t.innerLoop 0 a.stop).serve (a.packets.map a.datagram)
        = u.innerLoop a.packets.length a.stop := by
    rcases Nat.eq_zero_or_pos a.packetCount with hzero | hpos
    · have hnil : a.packets = [] := List.eq_nil_of_length_eq_zero (by omega)
      refine ⟨t, rfl, ?_, ?_⟩
      · rw [Arrivals.start, if_pos hnil, htimer]
      · rw [hnil]
        rfl
    · obtain ⟨u, hpacket, hstart, hserve⟩ := serve_packets a a.packets (t := t) (i := 0)
        (by rw [hpacketSize]; exact hsize hpos) (by omega)
        (fun d hd => by rw [hpacketSize]; exact a.fit d hd)
      rw [Nat.zero_add] at hserve
      refine ⟨u, hpacket, ?_, hserve⟩
      rw [hstart, Arrivals.start, htimer]
      by_cases hnil : a.packets = []
      · simp [hnil]
      · simp [hnil]
  obtain ⟨u, hpacket, hstart, hserve⟩ := hpackets
  have hserve' : s.serve a.events = (u.innerLoop a.packets.length a.stop).serve
      (if a.packets.length < a.packetCount then [a.failure] else []) := by
    rw [Arrivals.events, serve, List.foldl_cons, hstep, List.foldl_append]
    exact congrArg (serve · _) hserve
  have hsize' : u.udpPacket.packetSize = a.packetSize := by rw [hpacket, hpacketSize]
  have hcount' : u.udpPacket.packetCount.toNat = a.packetCount := by rw [hpacket, hpacketCount]
  rw [hserve', innerLoop, hcount', hsize']
  by_cases hless : a.packets.length < a.packetCount
  · rw [if_pos hless, if_pos hless, if_neg (hsize (by omega))]
    cases hlong : a.tooLong with
    | none =>
      refine ⟨{ u with pc := .inner a.packets.length }, hsize', hcount', hstart, ?_⟩
      rw [Arrivals.failure, hlong]
      rfl
    | some d =>
      refine ⟨{ u with pc := .inner a.packets.length, remote := d.1 }, hsize', hcount', hstart, ?_⟩
      have hnot : u.udpPacket.packetSize.toNat < d.2.length := by
        rw [hsize']
        exact a.noFit d hlong
      rw [Arrivals.failure, hlong]
      show ((step _ (.datagram d.1 d.2 a.first a.stop)).1) = _
      rw [Dca.step_inner rfl, data]
      dsimp only
      rw [Riot.sockUdpRecv_enobufs hnot]
  · rw [if_neg hless, if_neg hless]
    exact ⟨u, hsize', hcount', hstart, rfl⟩

end Tests

/-! ## The arithmetic -/

theorem toNat_sub_sub (stop allowance start : UInt32) :
    (((stop - allowance - start).toNat : Int) = stop.toNat - allowance.toNat - start.toNat) ↔
      start.toNat + allowance.toNat ≤ stop.toNat := by
  have hstop := stop.toNat_lt
  rw [UInt32.toNat_sub, UInt32.toNat_sub]
  omega

theorem endTest_timers (u : UdpServer) (i : Nat) (stop : UInt32) :
    (u.endTest i stop).endTimer = u.stopTime i stop ∧
      (u.endTest i stop).startTimer = u.startTimer := by
  unfold endTest
  dsimp only
  split_ifs
  · exact ⟨rfl, rfl⟩
  · exact ⟨rfl, rfl⟩

/-- The divisor is the time that has passed as long as no more is subtracted. -/
theorem divisor_iff (a : Arrivals s) {u : UdpServer}
    (hcount : u.udpPacket.packetCount.toNat = a.packetCount) (start : UInt32) :
    (((u.stopTime a.packets.length a.stop - start).toNat : Int)
        = a.stop.toNat - a.allowance - start.toNat) ↔
      start.toNat + a.allowance ≤ a.stop.toNat := by
  unfold stopTime Arrivals.allowance
  rw [hcount]
  split_ifs
  · have hword : a.stop - 100 - packetTimeout = a.stop - (100 + packetTimeout) := by
      grind
    rw [hword]
    exact toNat_sub_sub a.stop (100 + packetTimeout) start
  · exact toNat_sub_sub a.stop 100 start

/--
**The result of a test is exact when the test can be measured**, and only then: its packets are not
empty, more time has passed than the allowance of the test, and at most 4294 bytes have come.
-/
theorem exact_iff [Riot] (s : UdpServer) (hpc : s.pc = .outer) (a : Arrivals s) :
    Exact s a ↔ Measurable s a := by
  have hi : a.packets.length < 256 := by
    have hle : a.packets.length ≤ a.packetCount := a.count
    have hlt : a.packetCount < 256 := UInt8.toNat_lt _
    omega
  have hbytes : a.packetSize.toNat * a.packets.length * usPerSec.toNat < 2 ^ 32 ↔
      a.packetSize.toNat * a.packets.length ≤ 4294 := by
    show _ * 1000000 < 2 ^ 32 ↔ _
    omega
  by_cases hsize : 0 < a.packetCount → a.packetSize ≠ 0
  · obtain ⟨u, hpacketSize, hcount, hstart, hserve⟩ := serve_arrivals hpc a hsize
    obtain ⟨hend, htimer⟩ := endTest_timers u a.packets.length a.stop
    rw [hstart] at htimer
    have hdivisor := divisor_iff a hcount a.start
    constructor
    · rintro ⟨-, hdiv, hnonzero, hproduct, -⟩
      rw [hserve, hend, htimer] at hdiv hnonzero
      refine ⟨hsize, ?_, hbytes.mp hproduct⟩
      have hle := hdivisor.mp hdiv
      have hne : (u.stopTime a.packets.length a.stop - a.start).toNat ≠ 0 :=
        fun h => hnonzero (UInt32.toNat_inj.mp h)
      omega
    · rintro ⟨-, htime, hle⟩
      have hdiv := hdivisor.mpr (Nat.le_of_lt htime)
      have hnonzero : u.stopTime a.packets.length a.stop - a.start ≠ 0 := by
        intro hzero
        rw [hzero] at hdiv
        have hzero' : ((0 : UInt32).toNat : Int) = 0 := rfl
        omega
      have hresult : u.endTest a.packets.length a.stop = { u with
          endTimer := u.stopTime a.packets.length a.stop, pc := .sleeping
          udpPacket := { u.udpPacket with
            throughput := rate u.udpPacket.packetSize a.packets.length
              (u.stopTime a.packets.length a.stop - u.startTimer) } } := by
        rw [endTest]
        exact if_neg (by rw [hstart]; exact hnonzero)
      have hproduct := hbytes.mpr hle
      refine ⟨?_, ?_, ?_, hproduct, ?_⟩
      · rw [hserve, hresult]
      · rw [hserve, hend, htimer]
        exact hdiv
      · rw [hserve, hend, htimer]
        exact hnonzero
      · rw [hserve, hend, htimer, hresult]
        dsimp only
        rw [hpacketSize, hstart]
        exact toNat_rate hi hproduct _
  · have hempty : 0 < a.packetCount ∧ a.packetSize = 0 := by
      rwa [Classical.not_imp, not_not] at hsize
    constructor
    · intro h
      refine absurd ?_ (serve_empty hpc a hempty.1 hempty.2)
      rw [Serving, h.ends]
      trivial
    · intro h
      exact absurd h.size hsize

/-- A server that waits for its first request. -/
def idle : UdpServer := ⟨.outer, true, ⟨0, 0, 0, 0, 0⟩, ⟨0, 0⟩, 0, 0⟩

/-- A request for three packets of 128 bytes, of which `n` come, the first one after five seconds. -/
def threePackets (n : Nat) (hn : n ≤ 3) (stop : UInt32) (hstop : 5000000 ≤ stop) :
    Arrivals idle where
  src := ⟨1, 1884⟩
  payload := [startTest, 3, 128, 0]
  packets := List.replicate n (⟨1, 1884⟩, List.replicate 128 0)
  tooLong := none
  first := 5000000
  stop := stop
  received := by decide
  request := by decide
  count := by
    rw [List.length_replicate]
    exact hn
  fit := by
    intro d hd
    rw [List.eq_of_mem_replicate hd, List.length_replicate]
    exact Nat.le_refl 128
  noFit := by simp
  clock := hstop

/-- A timeout that comes 20 microseconds late leaves less time than is subtracted. -/
theorem not_allExact : ¬ AllExact := by
  intro h
  have hexact := @h gnrcSock idle rfl (threePackets 1 (by decide) 6000020 (by decide))
  exact absurd (@Exact.divisor gnrcSock _ _ hexact) (by decide +kernel)

/-- Three packets in three seconds. -/
theorem exact_threePackets :
    @Exact gnrcSock idle (threePackets 3 (by decide) 8000000 (by decide)) :=
  (@exact_iff gnrcSock idle rfl (threePackets 3 (by decide) 8000000 (by decide))).mpr
    ⟨by decide, by decide, by decide⟩

end UdpServer

end Dca
