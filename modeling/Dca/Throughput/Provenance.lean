import Dca.Db.Index
import Dca.Throughput.Network

/-!
# Whose result a client stores

The server has one packet, one `remote` and one pair of timers for all clients, and a datagram does
not say to which run it belongs. The results are those of the right test as long as no datagram is
taken for something that it is not: a request of an earlier run for a new one, any other datagram
for a packet of the open test, and a result of an earlier run for the one that a client waits for.
-/

namespace Dca

open CLib

/-- The payload of a request, of which the server needs the first three bytes. -/
def IsRequest (payload : List UInt8) : Prop :=
  ∃ rest, payload = startTest :: udpPacketCount :: udpPacketSize :: rest

/-- The test was opened by the `START_TEST` of this run of the client, and has counted only packets
that the client sent in this run. -/
structure UdpTest.Own (test : UdpTest) (sent : List ClientDatagram) (c : SockUdpEp) (run : Nat) :
    Prop where
  request_mem : test.request ∈ sent
  request : test.request.isData = false ∧ IsRequest test.request.payload
  opener_eq : test.opener = c
  run_eq : test.run = run
  counted : ∀ p ∈ test.counted, p.1 ∈ sent ∧ p.1.src = c ∧ p.1.run = run ∧ p.1.isData = true

/-- The microseconds from the first packet to the end of the test, without the time that the server
has waited for a packet that did not come. -/
def UdpTest.duration (test : UdpTest) (first : UInt32) : Nat :=
  let endTimer := test.stop - 100
  let endTimer :=
    if test.counted.length < test.packetCount.toNat then endTimer - packetTimeout else endTimer
  (endTimer - first).toNat

/-- The bytes that the counted packets have brought, per second. -/
def UdpTest.throughput (test : UdpTest) : Nat :=
  match test.counted with
  | [] => 0
  | (_, first) :: _ =>
    test.packetSize.toNat * test.counted.length * 1000000 / test.duration first

/-- Results belong to the client and the run that produced them. -/
structure Provenance (y : UdpSystem) : Prop where
  /-- What a client stores is the result of a test of its own in the same run. -/
  stored : ∀ c, (y.clients c).pc = .finishing → (y.clients c).throughput ≠ 0 →
    ∃ test, (y.clients c).source = some test ∧ test.Own y.toServer c (y.clients c).run ∧
      (y.clients c).throughput.toNat = test.throughput
  /-- A result goes to the client that opened the test. -/
  sent : ∀ r ∈ y.toClients, r.packet.id = success →
    ∃ test, r.test = some test ∧ r.dst = test.opener

/-- Results belong to the right run in every state of every run of the system. -/
def ResultsBelong (addr : Ipv6Addr) : Prop :=
  ∀ [Riot] server junk neighbours events y,
    run (UdpSystem.step addr) (.boot server junk neighbours) events = some y → Provenance y

/-- A datagram that the server may take: a request was sent in the current run of its client, and
during a test the datagram is a packet of the client that opened it, sent in its current run. -/
def UdpSystem.ServerTakes (y : UdpSystem) (d : ClientDatagram) : Prop :=
  (y.server.pc = .outer → d.payload.length ≤ sizeofUdpData → d.run = (y.clients d.src).run) ∧
    (y.server.pc ≠ .outer → y.test.map UdpTest.opener = some d.src ∧ d.isData = true ∧
      d.run = (y.clients d.src).run)

/-- A datagram that a client may take: a result was sent in its current run. -/
def UdpSystem.ClientTakes (y : UdpSystem) (c : SockUdpEp) (r : ServerDatagram) : Prop :=
  (y.clients c).pc = .awaitResult → r.packet.id = success → r.run = (y.clients c).run

/-- The condition on a step: what is received may be taken, and no client starts a run while a test
of it is open. -/
def TakesOwn (y : UdpSystem) : UdpEvent → Prop
  | .serverRecv k _ _ => ∀ d ∈ y.toServer[k]?, y.ServerTakes d
  | .clientRecv c k => ∀ r ∈ y.toClients[k]?, y.ClientTakes c r
  | .start c _ _ => y.test.map UdpTest.opener ≠ some c
  | _ => True

instance (y : UdpSystem) (d : ClientDatagram) : Decidable (y.ServerTakes d) :=
  inferInstanceAs (Decidable (_ ∧ _))

instance (y : UdpSystem) (c : SockUdpEp) (r : ServerDatagram) : Decidable (y.ClientTakes c r) :=
  inferInstanceAs (Decidable (_ → _ → _))

instance (y : UdpSystem) : (e : UdpEvent) → Decidable (TakesOwn y e)
  | .serverRecv k _ _ => inferInstanceAs (Decidable (∀ d ∈ y.toServer[k]?, y.ServerTakes d))
  | .clientRecv c k => inferInstanceAs (Decidable (∀ r ∈ y.toClients[k]?, y.ClientTakes c r))
  | .start c _ _ => inferInstanceAs (Decidable (y.test.map UdpTest.opener ≠ some c))
  | .serverError _ | .serverWake | .clientSend .. | .clientError _ | .clientStore _ =>
    .isTrue trivial

/-- What the clients send to the server: requests and packets. -/
def ClientDatagram.Regular (d : ClientDatagram) : Prop :=
  if d.isData then d.payload.length = udpPacketSize.toNat else IsRequest d.payload

/-- The variables of the server in a test of which it has received the counted packets. -/
structure UdpTest.Received (test : UdpTest) (s : UdpServer) : Prop where
  remote : s.remote = test.opener
  packetCount : s.udpPacket.packetCount = test.packetCount
  packetSize : s.udpPacket.packetSize = test.packetSize
  startTimer : ∀ p ∈ test.counted.head?, s.startTimer = p.2

/-- What the server knows of its test: where its result goes, and the number of its packets. -/
structure UdpTest.Matches (test : UdpTest) (s : UdpServer) : Prop where
  received : test.Received s
  count : ∀ i, s.pc = .inner i → test.counted.length = i ∧ i < test.packetCount.toNat
  value : s.pc = .sleeping → s.udpPacket.throughput.toNat = test.throughput

/-- The invariant of a system that takes nothing for what it is not. -/
structure Owned (y : UdpSystem) : Prop where
  regular : ∀ d ∈ y.toServer, d.Regular
  opened : y.server.pc.testing = true → ∃ test, y.test = some test ∧
    test.Own y.toServer test.opener (y.clients test.opener).run ∧ test.Matches y.server
  closed : y.server.pc.testing = false → y.test = none
  results : ∀ r ∈ y.toClients, r.packet.id = success →
    ∃ test, r.test = some test ∧ test.Own y.toServer r.dst r.run ∧
      r.packet.throughput.toNat = test.throughput
  stored : ∀ c, (y.clients c).throughput ≠ 0 →
    ∃ test, (y.clients c).source = some test ∧ test.Own y.toServer c (y.clients c).run ∧
      (y.clients c).throughput.toNat = test.throughput

variable {addr : Ipv6Addr} {y z : UdpSystem}

theorem UdpTest.Own.mono {test : UdpTest} {sent sent' : List ClientDatagram} {c : SockUdpEp}
    {run : Nat} (h : test.Own sent c run) (hsub : sent ⊆ sent') : test.Own sent' c run := by
  refine ⟨hsub h.request_mem, h.request, h.opener_eq, h.run_eq, fun p hp => ?_⟩
  obtain ⟨hmem, hown⟩ := h.counted p hp
  exact ⟨hsub hmem, hown⟩

theorem UdpTest.Own.sizes {test : UdpTest} {sent : List ClientDatagram} {c : SockUdpEp} {run : Nat}
    (h : test.Own sent c run) :
    test.packetCount = udpPacketCount ∧ test.packetSize = udpPacketSize := by
  obtain ⟨rest, hpayload⟩ := h.request.2
  rw [UdpTest.packetCount, UdpTest.packetSize, hpayload]
  exact ⟨rfl, rfl⟩

/-! ## The server -/

section Server

variable {s : UdpServer} {test : UdpTest}

/-- A test keeps what it has received when the clock is read at its end. -/
theorem UdpTest.Received.stopped {test : UdpTest} {s : UdpServer} (h : test.Received s)
    (stop : UInt32) : ({ test with stop } : UdpTest).Received s :=
  ⟨h.remote, h.packetCount, h.packetSize, h.startTimer⟩

theorem UdpTest.Own.stopped {test : UdpTest} {sent : List ClientDatagram} {c : SockUdpEp}
    {run : Nat} (h : test.Own sent c run) (stop : UInt32) :
    ({ test with stop } : UdpTest).Own sent c run :=
  ⟨h.request_mem, h.request, h.opener_eq, h.run_eq, h.counted⟩

/-- One more packet of the test. -/
theorem UdpTest.Received.packet {test : UdpTest} {s : UdpServer} (h : test.Received s)
    (d : ClientDatagram) (now stop : UInt32) (hsrc : d.src = test.opener) :
    ({ test with counted := test.counted ++ [(d, now)], stop } : UdpTest).Received
      { s with
        remote := d.src
        startTimer := if test.counted.length = 0 then now else s.startTimer } := by
  refine ⟨hsrc, h.packetCount, h.packetSize, ?_⟩
  intro p hp
  cases hcounted : test.counted with
  | nil =>
    rw [hcounted] at hp
    obtain rfl := Option.some.inj hp
    rfl
  | cons q rest =>
    rw [hcounted] at hp
    obtain rfl := Option.some.inj hp
    exact h.startTimer q (by rw [hcounted]; rfl)

/-- **The server computes the throughput of its test.** -/
theorem toNat_rate_received (h : test.Received s) (hcount : test.packetCount = udpPacketCount)
    (hsize : test.packetSize = udpPacketSize)
    (hle : test.counted.length ≤ test.packetCount.toNat) :
    (UdpServer.rate s.udpPacket.packetSize test.counted.length
      (s.stopTime test.counted.length test.stop - s.startTimer)).toNat = test.throughput := by
  have hle' : test.counted.length ≤ 3 := by
    rw [hcount] at hle
    exact hle
  have hproduct : s.udpPacket.packetSize.toNat * test.counted.length * usPerSec.toNat < 2 ^ 32 := by
    rw [h.packetSize, hsize]
    show 128 * _ * 1000000 < 2 ^ 32
    omega
  rw [UdpServer.toNat_rate (by omega) hproduct, h.packetSize, UdpTest.throughput]
  cases hcounted : test.counted with
  | nil => simp
  | cons p rest =>
    have hstart : s.startTimer = p.2 := h.startTimer p (by rw [hcounted]; rfl)
    rw [← hcounted, hstart]
    have hduration : (s.stopTime test.counted.length test.stop - p.2).toNat
        = test.duration p.2 := by
      rw [UdpServer.stopTime, UdpTest.duration, h.packetCount]
    rw [hduration, hcounted]
    rfl

/-- A test that ends has the throughput of its packets. -/
theorem matches_endTest (h : test.Received s) (hcount : test.packetCount = udpPacketCount)
    (hsize : test.packetSize = udpPacketSize)
    (hle : test.counted.length ≤ test.packetCount.toNat) :
    test.Matches (s.endTest test.counted.length test.stop) := by
  unfold UdpServer.endTest
  dsimp only
  split_ifs
  · refine ⟨⟨h.remote, h.packetCount, h.packetSize, h.startTimer⟩, ?_, ?_⟩
    · intro j hpc
      cases hpc
    · intro hpc
      cases hpc
  · refine ⟨⟨h.remote, h.packetCount, h.packetSize, h.startTimer⟩, ?_, ?_⟩
    · intro j hpc
      cases hpc
    · intro _
      exact toNat_rate_received h hcount hsize hle

theorem matches_innerLoop (h : test.Received s) (hcount : test.packetCount = udpPacketCount)
    (hsize : test.packetSize = udpPacketSize)
    (hle : test.counted.length ≤ test.packetCount.toNat) :
    test.Matches (s.innerLoop test.counted.length test.stop) := by
  unfold UdpServer.innerLoop
  split_ifs with hmore
  · refine ⟨⟨h.remote, h.packetCount, h.packetSize, h.startTimer⟩, ?_, ?_⟩
    · intro j hpc
      cases hpc
    · intro hpc
      cases hpc
  · refine ⟨⟨h.remote, h.packetCount, h.packetSize, h.startTimer⟩, ?_, ?_⟩
    · intro j hpc
      have hj : test.counted.length = j := ServerPc.inner.inj hpc
      rw [h.packetCount] at hmore
      exact ⟨hj, hj ▸ hmore⟩
    · intro hpc
      cases hpc
  · exact matches_endTest h hcount hsize hle

variable [Riot]

/-- **A datagram in the outer loop opens a test or changes nothing that matters.** What is sent is
no result, and the thread waits again or has opened a test by a datagram that is a request. -/
theorem request_cases (s : UdpServer) (hpc : s.pc = .outer) {d : ClientDatagram} (hd : d.Regular)
    (stop : UInt32) :
    (∀ reply ∈ (s.request d.src d.payload stop).2, reply.2.id ≠ success) ∧
      ((s.request d.src d.payload stop).1.pc.testing = false ∨
        d.payload.length ≤ sizeofUdpData ∧ d.isData = false ∧ IsRequest d.payload ∧
          UdpTest.Matches ⟨d, [], stop⟩ (s.request d.src d.payload stop).1) := by
  unfold UdpServer.request
  dsimp only
  by_cases hlen : d.payload.length ≤ sizeofUdpData
  · -- the packets of a test are longer
    have hdata : d.isData = false := by
      by_contra hdata
      rw [ClientDatagram.Regular, if_pos (Bool.not_eq_false _ ▸ hdata)] at hd
      rw [hd] at hlen
      exact absurd hlen (by decide)
    rw [ClientDatagram.Regular, hdata] at hd
    obtain ⟨rest, hpayload⟩ : IsRequest d.payload := hd
    rw [Riot.sockUdpRecv_fits hlen, hpayload]
    dsimp only
    have hid : (s.udpPacket.overwrite
      (startTest :: udpPacketCount :: udpPacketSize :: rest)).id = startTest := rfl
    rw [if_pos hid]
    refine ⟨?_, .inr ⟨hpayload ▸ hlen, hdata, ⟨rest, rfl⟩, ?_⟩⟩
    · intro reply hmem
      obtain rfl := List.mem_singleton.mp hmem
      show testAck ≠ success
      decide
    · have hcount : (⟨d, [], stop⟩ : UdpTest).packetCount = udpPacketCount := by
        rw [UdpTest.packetCount, hpayload]
        rfl
      have hsize : (⟨d, [], stop⟩ : UdpTest).packetSize = udpPacketSize := by
        rw [UdpTest.packetSize, hpayload]
        rfl
      have hreceived : UdpTest.Received ⟨d, [], stop⟩ { s with
          remote := d.src
          udpPacket := { s.udpPacket.overwrite
            (startTest :: udpPacketCount :: udpPacketSize :: rest) with id := testAck } } :=
        ⟨rfl, hcount.symm, hsize.symm, by simp⟩
      exact matches_innerLoop hreceived hcount hsize (Nat.zero_le _)
  · rw [Riot.sockUdpRecv_enobufs (Nat.not_le.mp hlen)]
    dsimp only
    rw [hpc]
    exact ⟨by simp, .inl rfl⟩

end Server

/-! ## The clients -/

theorem setClient_self (y : UdpSystem) (c : SockUdpEp) (x : UdpClient) :
    (y.setClient c x).clients c = x := if_pos rfl

theorem setClient_ne (y : UdpSystem) {c c' : SockUdpEp} (x : UdpClient) (h : c' ≠ c) :
    (y.setClient c x).clients c' = y.clients c' := if_neg h

/-- A client sends some datagrams. -/
theorem Owned.send (h : Owned y) {sent : List ClientDatagram} (hsent : ∀ d ∈ sent, d.Regular) :
    Owned { y with toServer := y.toServer ++ sent } := by
  have hsub : y.toServer ⊆ y.toServer ++ sent := List.subset_append_left _ _
  refine ⟨?_, ?_, h.closed, ?_, ?_⟩
  · intro d hd
    exact (List.mem_append.mp hd).elim (h.regular d) (hsent d)
  · intro htesting
    obtain ⟨test, htest, hown, hmatches⟩ := h.opened htesting
    exact ⟨test, htest, hown.mono hsub, hmatches⟩
  · intro r hr hid
    obtain ⟨test, htest, hown, hvalue⟩ := h.results r hr hid
    exact ⟨test, htest, hown.mono hsub, hvalue⟩
  · intro c hpos
    obtain ⟨test, htest, hown, hvalue⟩ := h.stored c hpos
    exact ⟨test, htest, hown.mono hsub, hvalue⟩

/-- **A step of a client**, which changes its run when no test of it is open, and takes a result of
its own. -/
theorem Owned.setClient (h : Owned y) {c : SockUdpEp} {x : UdpClient}
    (hrun : y.test.map UdpTest.opener = some c → x.run = (y.clients c).run)
    (hstored : x.throughput ≠ 0 → ∃ test, x.source = some test ∧ test.Own y.toServer c x.run ∧
      x.throughput.toNat = test.throughput) :
    Owned (y.setClient c x) := by
  refine ⟨h.regular, ?_, h.closed, h.results, ?_⟩
  · intro htesting
    obtain ⟨test, htest, hown, hmatches⟩ := h.opened htesting
    refine ⟨test, htest, ?_, hmatches⟩
    by_cases hc : test.opener = c
    · have hsame : x.run = (y.clients test.opener).run := by
        rw [hc]
        refine hrun ?_
        rw [htest, Option.map_some, hc]
      rw [hc, setClient_self, hsame, ← hc]
      exact hown
    · rw [setClient_ne _ _ hc]
      exact hown
  · intro c' hpos
    by_cases hc : c' = c
    · subst hc
      rw [setClient_self] at hpos ⊢
      exact hstored hpos
    · rw [setClient_ne _ _ hc] at hpos ⊢
      exact h.stored c' hpos

/-- A step of a client that keeps its run and its result. -/
theorem Owned.frame (h : Owned y) {c : SockUdpEp} {x : UdpClient}
    (hrun : x.run = (y.clients c).run) (hthroughput : x.throughput = (y.clients c).throughput)
    (hsource : x.source = (y.clients c).source) : Owned (y.setClient c x) := by
  refine h.setClient (fun _ => hrun) ?_
  intro hpos
  rw [hthroughput] at hpos ⊢
  rw [hsource, hrun]
  exact h.stored c hpos

/-- **What a client takes from a datagram.** -/
theorem recv_cases {x x' : UdpClient} {r : ServerDatagram} (h : x.recv r = some x') :
    x'.run = x.run ∧ (x'.throughput = x.throughput ∧ x'.source = x.source ∨
      x.pc = .awaitResult ∧ r.packet.id = success ∧ x'.throughput = r.packet.throughput ∧
        x'.source = r.test) := by
  unfold UdpClient.recv at h
  rw [overwrite_bytes] at h
  dsimp only at h
  split at h
  · split_ifs at h
    · obtain rfl := Option.some.inj h
      exact ⟨rfl, .inl ⟨rfl, rfl⟩⟩
    · obtain rfl := Option.some.inj h
      exact ⟨rfl, .inl ⟨rfl, rfl⟩⟩
  · next hpc =>
    split_ifs at h with hid
    · obtain rfl := Option.some.inj h
      exact ⟨rfl, .inr ⟨hpc, hid, rfl, rfl⟩⟩
    · obtain rfl := Option.some.inj h
      exact ⟨rfl, .inl ⟨rfl, rfl⟩⟩
  · cases h

theorem fail_frame {x x' : UdpClient} (h : x.fail = some x') :
    x'.run = x.run ∧ x'.throughput = x.throughput ∧ x'.source = x.source := by
  unfold UdpClient.fail at h
  split at h
  · obtain rfl := Option.some.inj h
    exact ⟨rfl, rfl, rfl⟩
  · obtain rfl := Option.some.inj h
    exact ⟨rfl, rfl, rfl⟩
  · obtain rfl := Option.some.inj h
    exact ⟨rfl, rfl, rfl⟩
  · cases h

/-! ## Runs of the system -/

theorem owned_boot (server : UdpServer) (junk : UdpData)
    (neighbours : SockUdpEp → List NeighborEntryl) : Owned (.boot server junk neighbours) := by
  refine ⟨?_, ?_, fun _ => rfl, ?_, ?_⟩
  · intro d hd
    cases hd
  · intro htesting
    cases htesting
  · intro r hr
    cases hr
  · intro c hpos
    exact absurd rfl hpos

theorem Owned.provenance (h : Owned y) : Provenance y := by
  refine ⟨fun c _ hpos => h.stored c hpos, ?_⟩
  intro r hr hid
  obtain ⟨test, htest, hown, -⟩ := h.results r hr hid
  exact ⟨test, htest, hown.opener_eq.symm⟩

section Runs

variable [Riot]

/-- **A step of the server**, when the test behind it belongs to its client and matches the server,
and so does what is sent. -/
theorem Owned.serverStep (h : Owned y) (e : ServerEvent) (test : Option UdpTest)
    (hopen : (y.server.step e).1.pc.testing = true → ∃ t, test = some t ∧
      t.Own y.toServer t.opener (y.clients t.opener).run ∧ t.Matches (y.server.step e).1)
    (hsent : ∀ reply ∈ (y.server.step e).2, reply.2.id = success → ∃ t, test = some t ∧
      t.Own y.toServer reply.1 (y.clients reply.1).run ∧
      reply.2.throughput.toNat = t.throughput) :
    Owned (y.serverStep e test) := by
  refine ⟨h.regular, ?_, ?_, ?_, h.stored⟩
  · intro htesting
    obtain ⟨t, rfl, hown⟩ := hopen htesting
    exact ⟨t, if_pos htesting, hown⟩
  · intro htesting
    refine if_neg ?_
    rw [Bool.not_eq_true]
    exact htesting
  · intro r hr hid
    rcases List.mem_append.mp hr with hr | hr
    · exact h.results r hr hid
    · obtain ⟨reply, hmem, rfl⟩ := List.mem_map.mp hr
      exact hsent reply hmem hid

/-- **A datagram in the outer loop.** -/
theorem owned_request (h : Owned y) (hpc : y.server.pc = .outer) {d : ClientDatagram}
    (hmem : d ∈ y.toServer) (now stop : UInt32)
    (hd : d.payload.length ≤ sizeofUdpData → d.run = (y.clients d.src).run) :
    Owned (y.serverStep (.datagram d.src d.payload now stop) (y.nextTest d now stop)) := by
  obtain ⟨hsent, hopen⟩ := request_cases y.server hpc (h.regular d hmem) stop
  have hnext : y.nextTest d now stop = some ⟨d, [], stop⟩ := by rw [UdpSystem.nextTest, hpc]
  refine h.serverStep _ _ ?_ ?_
  · intro htesting
    rw [step_outer hpc] at htesting ⊢
    rcases hopen with hclosed | ⟨hlen, hdata, hrequest, hmatches⟩
    · rw [htesting] at hclosed
      cases hclosed
    · -- a test that has just been opened has counted nothing
      exact ⟨_, hnext, ⟨hmem, ⟨hdata, hrequest⟩, rfl, hd hlen,
        fun _ hmem => absurd hmem List.not_mem_nil⟩, hmatches⟩
  · intro reply hmem hid
    rw [step_outer hpc] at hmem
    exact absurd hid (hsent reply hmem)

/-- **A datagram in the inner loop.** -/
theorem owned_data (h : Owned y) {i : Nat} (hpc : y.server.pc = .inner i) {d : ClientDatagram}
    (hmem : d ∈ y.toServer) (now stop : UInt32) (hopener : y.test.map UdpTest.opener = some d.src)
    (hdata : d.isData = true) (hrun : d.run = (y.clients d.src).run) :
    Owned (y.serverStep (.datagram d.src d.payload now stop) (y.nextTest d now stop)) := by
  obtain ⟨test, htest, hown, hmatches⟩ := h.opened (by rw [hpc]; rfl)
  rw [htest] at hopener
  have hsrc : test.opener = d.src := Option.some.inj hopener
  obtain ⟨hcount, hless⟩ := hmatches.count i hpc
  obtain ⟨hpacketCount, hpacketSize⟩ := hown.sizes
  refine h.serverStep _ _ ?_ ?_
  · intro _
    rw [step_inner hpc]
    by_cases hlen : d.payload.length ≤ y.server.udpPacket.packetSize.toNat
    · -- one more packet of the test
      have hnext : y.nextTest d now stop
          = some { test with counted := test.counted ++ [(d, now)], stop } := by
        rw [UdpSystem.nextTest, hpc, htest]
        dsimp only
        rw [Riot.sockUdpRecv_fits hlen]
        rfl
      refine ⟨_, hnext, ⟨hown.request_mem, hown.request, rfl, hown.run_eq, ?_⟩, ?_⟩
      · intro p hp
        rcases List.mem_append.mp hp with hp | hp
        · exact hown.counted p hp
        · obtain rfl := List.mem_singleton.mp hp
          refine ⟨hmem, hsrc.symm, ?_, hdata⟩
          rw [hrun]
          exact congrArg (fun c => (y.clients c).run) hsrc.symm
      · unfold UdpServer.data
        dsimp only
        rw [Riot.sockUdpRecv_fits hlen, ← hcount]
        have hmatches' := matches_innerLoop (hmatches.received.packet d now stop hsrc.symm)
          hpacketCount hpacketSize (by
            rw [List.length_append]
            show test.counted.length + 1 ≤ _
            exact hcount ▸ hless)
        rw [List.length_append] at hmatches'
        exact hmatches'
    · -- it does not fit and ends the test
      have hnext : y.nextTest d now stop = some { test with stop } := by
        rw [UdpSystem.nextTest, hpc, htest]
        dsimp only
        rw [Riot.sockUdpRecv_enobufs (Nat.not_le.mp hlen)]
        rfl
      refine ⟨_, hnext, hown.stopped stop, ?_⟩
      unfold UdpServer.data
      dsimp only
      rw [Riot.sockUdpRecv_enobufs (Nat.not_le.mp hlen), ← hcount]
      have hreceived : ({ test with stop } : UdpTest).Received { y.server with remote := d.src } :=
        ⟨hsrc.symm, hmatches.received.packetCount, hmatches.received.packetSize,
          hmatches.received.startTimer⟩
      exact matches_endTest hreceived hpacketCount hpacketSize (hcount ▸ Nat.le_of_lt hless)
  · intro reply hmem
    rw [step_inner hpc] at hmem
    cases hmem

/-- An error ends the test, and in the outer loop nothing. -/
theorem owned_error (h : Owned y) (stop : UInt32) :
    Owned (y.serverStep (.error stop) (y.failedTest stop)) := by
  by_cases hinner : ∃ i, y.server.pc = .inner i
  · obtain ⟨i, hpc⟩ := hinner
    obtain ⟨test, htest, hown, hmatches⟩ := h.opened (by rw [hpc]; rfl)
    obtain ⟨hcount, hless⟩ := hmatches.count i hpc
    obtain ⟨hpacketCount, hpacketSize⟩ := hown.sizes
    have hstep : y.server.step (.error stop) = (y.server.endTest i stop, []) := by
      unfold UdpServer.step
      rw [hpc]
    have hfailed : y.failedTest stop = some { test with stop } := by
      rw [UdpSystem.failedTest, hpc, htest]
      rfl
    refine h.serverStep _ _ ?_ ?_
    · intro _
      refine ⟨_, hfailed, hown.stopped stop, ?_⟩
      rw [hstep, ← hcount]
      exact matches_endTest (hmatches.received.stopped stop) hpacketCount hpacketSize
        (hcount ▸ Nat.le_of_lt hless)
    · intro reply hmem
      rw [hstep] at hmem
      cases hmem
  · have hstep : y.server.step (.error stop) = (y.server, []) := by
      unfold UdpServer.step
      cases hpc : y.server.pc with
      | inner i => exact absurd ⟨i, hpc⟩ hinner
      | outer | sleeping | stopped | trapped => rfl
    have hfailed : y.failedTest stop = y.test := by
      unfold UdpSystem.failedTest
      cases hpc : y.server.pc with
      | inner i => exact absurd ⟨i, hpc⟩ hinner
      | outer | sleeping | stopped | trapped => rfl
    rw [hfailed]
    refine h.serverStep _ _ ?_ ?_
    · intro htesting
      rw [hstep] at htesting ⊢
      exact h.opened htesting
    · intro reply hmem
      rw [hstep] at hmem
      cases hmem

/-- **The result goes to the client that opened the test.** -/
theorem owned_wake (h : Owned y) : Owned (y.serverStep .wake y.test) := by
  by_cases hpc : y.server.pc = .sleeping
  · obtain ⟨test, htest, hown, hmatches⟩ := h.opened (by rw [hpc]; rfl)
    have hstep : y.server.step .wake =
        ({ y.server with pc := .outer, udpPacket := { y.server.udpPacket with id := success } },
          [(y.server.remote, { y.server.udpPacket with id := success })]) := by
      unfold UdpServer.step
      rw [hpc]
    refine h.serverStep _ _ ?_ ?_
    · intro htesting
      rw [hstep] at htesting
      cases htesting
    · intro reply hmem _
      rw [hstep] at hmem
      obtain rfl := List.mem_singleton.mp hmem
      refine ⟨test, htest, ?_, hmatches.value hpc⟩
      -- `remote` is still the client that opened the test
      rw [hmatches.received.remote]
      exact hown
  · have hstep : y.server.step .wake = (y.server, []) := by
      unfold UdpServer.step
      cases hpc' : y.server.pc with
      | sleeping => exact absurd hpc' hpc
      | outer | inner | stopped | trapped => rfl
    refine h.serverStep _ _ ?_ ?_
    · intro htesting
      rw [hstep] at htesting ⊢
      exact h.opened htesting
    · intro reply hmem
      rw [hstep] at hmem
      cases hmem

/-- **What a client sends first is a request**, with no more than a pointer's size of it. -/
theorem isRequest_start (x : UdpClient) (pad : UInt8) :
    IsRequest ((x.start pad true).udpPacket.bytes.take Riot.sizeofPointer) := by
  rcases Riot.sizeofPointer_eq with hsize | hsize
  · rw [hsize]
    exact ⟨_, rfl⟩
  · rw [hsize]
    exact ⟨_, rfl⟩

/-- **Every step that takes nothing for what it is not keeps the results where they belong.** -/
theorem owned_step {e : UdpEvent} (hc : TakesOwn y e) (h : Owned y)
    (hstep : UdpSystem.step addr y e = some z) : Owned z := by
  cases e with
  | serverRecv k now stop =>
    dsimp only [UdpSystem.step] at hstep
    split at hstep
    · next d hpc hd =>
      obtain rfl := Option.some.inj hstep
      exact owned_request h hpc (List.mem_of_getElem? hd) now stop ((hc d hd).1 hpc)
    · next i d hpc hd =>
      obtain rfl := Option.some.inj hstep
      have hinner : y.server.pc ≠ .outer := by
        rw [hpc]
        simp
      obtain ⟨hopener, hdata, hrun⟩ := (hc d hd).2 hinner
      exact owned_data h hpc (List.mem_of_getElem? hd) now stop hopener hdata hrun
    · cases hstep
  | serverError stop =>
    obtain rfl := Option.some.inj hstep
    exact owned_error h stop
  | serverWake =>
    obtain rfl := Option.some.inj hstep
    exact owned_wake h
  | start c pad sockUdpSend =>
    dsimp only [UdpSystem.step] at hstep
    split_ifs at hstep with hidle hsend
    · obtain rfl := Option.some.inj hstep
      refine (h.send ?_).setClient (fun hopen => absurd hopen hc) (fun hpos => absurd rfl hpos)
      intro d hd
      obtain rfl := List.mem_singleton.mp hd
      exact isRequest_start (y.clients c) pad
    · obtain rfl := Option.some.inj hstep
      exact h.setClient (fun hopen => absurd hopen hc) (fun hpos => absurd rfl hpos)
  | clientRecv c k =>
    dsimp only [UdpSystem.step] at hstep
    split at hstep
    · next r hr =>
      split_ifs at hstep with hdst
      obtain ⟨x, hx, rfl⟩ := Option.map_eq_some_iff.mp hstep
      obtain ⟨hrun, ⟨hthroughput, hsource⟩ | ⟨hpc, hid, hthroughput, hsource⟩⟩ := recv_cases hx
      · exact h.frame hrun hthroughput hsource
      · -- the result of the test that the client waits for
        refine h.setClient (fun _ => hrun) ?_
        intro _
        obtain ⟨test, htest, hown, hvalue⟩ := h.results r (List.mem_of_getElem? hr) hid
        refine ⟨test, hsource.trans htest, ?_, ?_⟩
        · rw [hrun, ← hc r hr hpc hid, ← hdst]
          exact hown
        · rw [hthroughput]
          exact hvalue
    · cases hstep
  | clientSend c payload =>
    dsimp only [UdpSystem.step] at hstep
    split at hstep
    · split_ifs at hstep with hlength
      obtain rfl := Option.some.inj hstep
      refine (h.send ?_).frame rfl rfl rfl
      intro d hd
      obtain rfl := List.mem_singleton.mp hd
      exact hlength
    · cases hstep
  | clientError c =>
    obtain ⟨x, hx, rfl⟩ := Option.map_eq_some_iff.mp hstep
    obtain ⟨hrun, hthroughput, hsource⟩ := fail_frame hx
    exact h.frame hrun hthroughput hsource
  | clientStore c =>
    dsimp only [UdpSystem.step] at hstep
    split_ifs at hstep
    obtain rfl := Option.some.inj hstep
    exact h.frame rfl rfl rfl

/-- **Where no datagram is taken for what it is not, results belong to the client and the run that
produced them.** -/
theorem provenance_of_takesOwn (addr : Ipv6Addr) (server : UdpServer) (junk : UdpData)
    (neighbours : SockUdpEp → List NeighborEntryl) (events : List UdpEvent) (y : UdpSystem)
    (htakes : Meets (UdpSystem.step addr) TakesOwn (.boot server junk neighbours) events)
    (hrun : run (UdpSystem.step addr) (.boot server junk neighbours) events = some y) :
    Provenance y := by
  have howned : Owned y :=
    run_invariant (fun _ _ _ => owned_step) htakes (owned_boot server junk neighbours) hrun
  exact howned.provenance

end Runs

/-! ## Two clients -/

attribute [local instance] gnrcSock

/-- The endpoint of the client at `fe80::i`. -/
def clientAt (i : Nat) : SockUdpEp := ⟨linkLocal i, 1884⟩

/-- A packet of a test. -/
def zeroPayload : List UInt8 := List.replicate udpPacketSize.toNat 0

/-- A server in its loop and clients without neighbours. -/
def smallSystem : UdpSystem :=
  .boot ⟨.stopped, false, ⟨0, 0, 0, 0, 0⟩, ⟨0, 0⟩, 0, 0⟩ ⟨0, 0, 0, 0, 0⟩ fun _ => []

/-- The acknowledgement `k` is received and three packets are sent. -/
def smallPackets (c : SockUdpEp) (k : Nat) : List UdpEvent :=
  [.clientRecv c k, .clientSend c zeroPayload, .clientSend c zeroPayload, .clientSend c zeroPayload]

/-- The server takes a request, its packets from `first` on come, and the client takes the result
behind the acknowledgement `ack`. -/
def servedRound (c : SockUdpEp) (request ack first : Nat) (now stop : UInt32) : List UdpEvent :=
  [.serverRecv request now stop] ++ smallPackets c ack
    ++ [.serverRecv first now stop, .serverRecv (first + 1) now stop,
      .serverRecv (first + 2) now stop, .serverWake, .clientRecv c (ack + 1)]

/-- Two clients ask for a test at the same time, and the server measures one after the other. -/
def twoRounds : List UdpEvent :=
  [.start (clientAt 1) 0 true, .start (clientAt 2) 0 true]
    ++ servedRound (clientAt 1) 0 0 2 0 1000100 ++ servedRound (clientAt 2) 1 2 5 3000000 5000100

theorem provenance_twoRounds :
    ∃ y, run (UdpSystem.step (linkLocal 9)) smallSystem twoRounds = some y ∧
      (y.clients (clientAt 1)).throughput = 384 ∧ (y.clients (clientAt 2)).throughput = 192 ∧
        Provenance y := by
  have hrun : ∃ y, run (UdpSystem.step (linkLocal 9)) smallSystem twoRounds = some y ∧
      ((y.clients (clientAt 1)).throughput = 384 ∧ (y.clients (clientAt 2)).throughput = 192) :=
    exists_run_of_any (by decide +kernel)
  obtain ⟨y, hrun, hone, htwo⟩ := hrun
  have htakes : Meets (UdpSystem.step (linkLocal 9)) TakesOwn smallSystem twoRounds := by
    decide +kernel
  exact ⟨y, hrun, hone, htwo,
    provenance_of_takesOwn (linkLocal 9) _ _ _ twoRounds y htakes hrun⟩

/-- The request of a second client arrives during the test of the first one, whose last packet is
lost. -/
def twoClients : List UdpEvent :=
  [.start (clientAt 1) 0 true, .serverRecv 0 0 0, .start (clientAt 2) 0 true]
    ++ smallPackets (clientAt 1) 0
    ++ [.serverRecv 1 0 0, .serverRecv 2 0 0, .serverRecv 3 0 1000100, .serverWake,
      .clientRecv (clientAt 1) 1]

/-- The first client stores a result for which the request of the second one was counted. -/
theorem not_resultsBelong : ¬ ResultsBelong (linkLocal 9) := by
  intro h
  have hrun : ∃ y, run (UdpSystem.step (linkLocal 9)) smallSystem twoClients = some y ∧
      (y.clients (clientAt 1)).pc = .finishing ∧ (y.clients (clientAt 1)).throughput = 384 ∧
      (y.clients (clientAt 1)).source.map (fun test => test.counted.map fun p => p.1.src)
        = some [clientAt 2, clientAt 1, clientAt 1] := exists_run_of_any (by decide +kernel)
  obtain ⟨y, hrun, hpc, hvalue, hcounted⟩ := hrun
  have hpos : (y.clients (clientAt 1)).throughput ≠ 0 := by
    rw [hvalue]
    decide
  obtain ⟨test, hsource, hown, -⟩ := (h _ _ _ twoClients y hrun).stored (clientAt 1) hpc hpos
  rw [hsource, Option.map_some, Option.some.injEq] at hcounted
  have hsrc : clientAt 2 ∈ test.counted.map fun p => p.1.src := by
    rw [hcounted]
    exact List.mem_cons_self
  obtain ⟨p, hp, heq⟩ := List.mem_map.mp hsrc
  exact absurd (heq.symm.trans (hown.counted p hp).2.1) (by decide)

end Dca
