import Dca.Lib.Rank
import Dca.Neighbour.Clients
import Dca.Throughput.Provenance
import Dca.Throughput.Survival

/-!
# Rounds come to their end

A client waits with a timeout, and so does the server once it is in a test. So neither of them can
be kept in a round: whatever the network loses, delays or makes up, and whatever an answer says
about the number of packets, a round of a client takes a bounded number of its own turns and stores
one result, and a test of the server takes a bounded number of turns.
-/

namespace Dca

open CLib

/-! ## The client -/

/-- A turn of a client in a round, from one call to the next. -/
inductive ClientTurn (addr : Ipv6Addr) (x : UdpClient) : UdpClient → Prop where
  | recv {r : ServerDatagram} {x' : UdpClient} (h : x.recv r = some x') : ClientTurn addr x x'
  | send {i : Nat} (hpc : x.pc = .sending i) : ClientTurn addr x (x.sendLoop (i + 1))
  | fail {x' : UdpClient} (h : x.fail = some x') : ClientTurn addr x x'
  | store (hpc : x.pc = .finishing) : ClientTurn addr x (x.store addr)

/-- Whether a step is a turn of the client at `c` in its round. -/
def UdpEvent.turnOf (c : SockUdpEp) : UdpEvent → Bool
  | .clientRecv c' _ => c' = c
  | .clientSend c' _ => c' = c
  | .clientError c' => c' = c
  | .clientStore c' => c' = c
  | .serverRecv .. | .serverError _ | .serverWake | .start .. => false

variable {addr : Ipv6Addr} {y z : UdpSystem} {e : UdpEvent} {c : SockUdpEp} {x x' : UdpClient}

/-- The turn of the client at `c'`, seen from `c`. -/
theorem turn_cases (c' : SockUdpEp) (y' : UdpSystem) (hclients : y'.clients = y.clients)
    (hturn : ClientTurn addr (y.clients c') x) :
    (decide (c' = c) = false ∧ (y'.setClient c' x).clients c = y.clients c) ∨
      (decide (c' = c) = true ∧ ClientTurn addr (y.clients c) ((y'.setClient c' x).clients c)) := by
  by_cases hc : c' = c
  · subst hc
    rw [setClient_self]
    exact Or.inr ⟨decide_eq_true rfl, hturn⟩
  · rw [setClient_ne y' x (fun h => hc h.symm), hclients]
    exact Or.inl ⟨decide_eq_false hc, rfl⟩

/-- **A client begins a round, takes one of its turns, or is left alone.** -/
theorem client_step [Riot] (h : UdpSystem.step addr y e = some z) :
    (e.turnOf c = false ∧ z.clients c = y.clients c ∨
      e.turnOf c = true ∧ ClientTurn addr (y.clients c) (z.clients c)) ∨
      (y.clients c).pc = .idle ∧
        ∃ pad sockUdpSend, z.clients c = (y.clients c).start pad sockUdpSend := by
  cases e with
  | serverRecv k now stop =>
    dsimp only [UdpSystem.step] at h
    split at h
    · obtain rfl := Option.some.inj h
      exact Or.inl (Or.inl ⟨rfl, rfl⟩)
    · obtain rfl := Option.some.inj h
      exact Or.inl (Or.inl ⟨rfl, rfl⟩)
    · cases h
  | serverError stop =>
    obtain rfl := Option.some.inj h
    exact Or.inl (Or.inl ⟨rfl, rfl⟩)
  | serverWake =>
    obtain rfl := Option.some.inj h
    exact Or.inl (Or.inl ⟨rfl, rfl⟩)
  | start c' pad sockUdpSend =>
    dsimp only [UdpSystem.step] at h
    by_cases hidle : (y.clients c').pc = .idle
    · rw [if_pos hidle] at h
      obtain rfl := Option.some.inj h
      by_cases hc : c = c'
      · subst hc
        rw [setClient_self]
        exact Or.inr ⟨hidle, pad, sockUdpSend, rfl⟩
      · rw [setClient_ne _ _ hc]
        exact Or.inl (Or.inl ⟨rfl, rfl⟩)
    · rw [if_neg hidle] at h
      cases h
  | clientRecv c' k =>
    dsimp only [UdpSystem.step] at h
    split at h
    · split_ifs at h
      obtain ⟨x, hx, rfl⟩ := Option.map_eq_some_iff.mp h
      exact Or.inl (turn_cases c' y rfl (.recv hx))
    · cases h
  | clientSend c' payload =>
    dsimp only [UdpSystem.step] at h
    split at h
    · next i hsending =>
      split_ifs at h
      obtain rfl := Option.some.inj h
      exact Or.inl (turn_cases c' _ rfl (.send hsending))
    · cases h
  | clientError c' =>
    obtain ⟨x, hx, rfl⟩ := Option.map_eq_some_iff.mp h
    exact Or.inl (turn_cases c' y rfl (.fail hx))
  | clientStore c' =>
    dsimp only [UdpSystem.step] at h
    split_ifs at h with hfin
    obtain rfl := Option.some.inj h
    exact Or.inl (turn_cases c' y rfl (.store hfin))

/-- How many turns a round may still take. The number of packets has eight bits. -/
def UdpClient.rank (x : UdpClient) : Nat :=
  match x.pc with
  | .idle => 0
  | .finishing => 1
  | .awaitResult => 2
  | .sending i => 2 + (x.udpPacket.packetCount.toNat - i)
  | .awaitAck => 258

/-- Before a packet is sent it is one of those to send. -/
def UdpClient.InPackets (x : UdpClient) : Prop :=
  ∀ i, x.pc = .sending i → i < x.udpPacket.packetCount.toNat

theorem sendLoop_cases (x : UdpClient) (i : Nat) :
    (x.sendLoop i).InPackets ∧
      (x.sendLoop i).rank = 2 + (x.udpPacket.packetCount.toNat - i) := by
  unfold UdpClient.sendLoop
  split_ifs with hi
  · refine ⟨?_, rfl⟩
    rintro j ⟨⟩
    exact hi
  · refine ⟨?_, ?_⟩
    · rintro j ⟨⟩
    · show 2 = _
      omega

theorem inPackets_of_ne (h : ∀ i, x.pc ≠ .sending i) : x.InPackets := fun i hi => absurd hi (h i)

/-- **Every turn brings the end of the round nearer.** -/
theorem clientTurn_rank (hx : x.InPackets) (h : ClientTurn addr x x') :
    x'.InPackets ∧ x'.rank + 1 ≤ x.rank := by
  cases h with
  | @recv r x' h =>
    unfold UdpClient.recv at h
    dsimp only at h
    split at h
    · next hpc =>
      have hrank : x.rank = 258 := by rw [UdpClient.rank, hpc]
      split_ifs at h
      · obtain rfl := Option.some.inj h
        obtain ⟨hin, hloop⟩ := sendLoop_cases
          { x with udpPacket := x.udpPacket.overwrite r.packet.bytes } 0
        have hcount := (x.udpPacket.overwrite r.packet.bytes).packetCount.toNat_lt
        exact ⟨hin, by rw [hloop, hrank]; dsimp only; omega⟩
      · obtain rfl := Option.some.inj h
        exact ⟨inPackets_of_ne (by simp), by rw [hrank]; exact Nat.le_of_ble_eq_true rfl⟩
    · next hpc =>
      have hrank : x.rank = 2 := by rw [UdpClient.rank, hpc]
      split_ifs at h
      all_goals
        obtain rfl := Option.some.inj h
        exact ⟨inPackets_of_ne (by simp), by rw [hrank]; exact Nat.le_refl 2⟩
    · cases h
  | @send i hpc =>
    obtain ⟨hin, hloop⟩ := sendLoop_cases x (i + 1)
    have hi := hx i hpc
    have hrank : x.rank = 2 + (x.udpPacket.packetCount.toNat - i) := by rw [UdpClient.rank, hpc]
    exact ⟨hin, by rw [hloop, hrank]; omega⟩
  | fail h =>
    have hle : 2 ≤ x.rank := by
      unfold UdpClient.fail at h
      unfold UdpClient.rank
      split at h
      · next hpc => simp [hpc]
      · next hpc => simp [hpc]
      · next hpc => simp [hpc]
      · cases h
    have hfin : x'.pc = .finishing := by
      unfold UdpClient.fail at h
      split at h
      all_goals cases h
      all_goals rfl
    exact ⟨inPackets_of_ne (by simp [hfin]), by rw [UdpClient.rank, hfin]; exact hle⟩
  | store hpc =>
    exact ⟨inPackets_of_ne (by simp [UdpClient.store]),
      by simp [UdpClient.rank, hpc, UdpClient.store]⟩

theorem recv_pc {r : ServerDatagram} (h : x.recv r = some x') : x'.pc ≠ .idle := by
  unfold UdpClient.recv at h
  dsimp only at h
  split at h
  · split_ifs at h
    all_goals obtain rfl := Option.some.inj h
    · unfold UdpClient.sendLoop
      split_ifs <;> simp
    · simp
  · split_ifs at h
    all_goals
      obtain rfl := Option.some.inj h
      simp
  · cases h

/-- A turn stores nothing, or it stores the result and ends the round. -/
theorem clientTurn_stores (h : ClientTurn addr x x') :
    x'.pc ≠ .idle ∧ x'.neighbours = x.neighbours ∨
      x'.pc = .idle ∧ x'.neighbours = (StatOp.throughput addr x.throughput).apply x.neighbours := by
  cases h with
  | recv h => exact Or.inl ⟨recv_pc h, recv_neighbours h⟩
  | @send i hpc =>
    refine Or.inl ⟨?_, rfl⟩
    unfold UdpClient.sendLoop
    split_ifs <;> simp
  | fail h =>
    unfold UdpClient.fail at h
    split at h
    all_goals cases h
    all_goals exact Or.inl ⟨by simp, rfl⟩
  | store hpc => exact Or.inr ⟨rfl, rfl⟩

/-- The client at `c` is in a round. -/
def InRound (c : SockUdpEp) (y : UdpSystem) (_ : UdpEvent) : Prop := (y.clients c).pc ≠ .idle

theorem inPackets_step [Riot] (h : (y.clients c).InPackets)
    (hstep : UdpSystem.step addr y e = some z) :
    (z.clients c).InPackets := by
  rcases client_step (c := c) hstep with (⟨-, hsame⟩ | ⟨-, hturn⟩) | ⟨-, pad, sockUdpSend, hstart⟩
  · rw [hsame]
    exact h
  · exact (clientTurn_rank h hturn).1
  · rw [hstart]
    refine inPackets_of_ne fun i => ?_
    unfold UdpClient.start
    split_ifs <;> simp

theorem ranked_inRound [Riot] (c : SockUdpEp) :
    Ranked (UdpSystem.step addr) (fun _ e => e.turnOf c) (InRound c)
      (fun y => (y.clients c).InPackets) (fun y => (y.clients c).rank) where
  keep := fun _ _ _ _ h hstep => inPackets_step h hstep
  down := by
    intro y e z hround h hstep
    rcases client_step (c := c) hstep with (⟨hno, hsame⟩ | ⟨hyes, hturn⟩) | ⟨hidle, -⟩
    · rw [hno, hsame]
      exact Nat.le_refl _
    · rw [hyes]
      exact (clientTurn_rank h hturn).2
    · exact absurd hidle hround

theorem rank_le (x : UdpClient) : x.rank ≤ 258 := by
  have hcount := x.udpPacket.packetCount.toNat_lt
  unfold UdpClient.rank
  split
  all_goals omega

/-- A client in a round can always take a turn: its calls fail after a time. -/
theorem exists_turn [Riot] (hpc : (y.clients c).pc ≠ .idle) :
    ∃ e z, e.turnOf c = true ∧ UdpSystem.step addr y e = some z := by
  by_cases hfin : (y.clients c).pc = .finishing
  · exact ⟨.clientStore c, _, decide_eq_true rfl, if_pos hfin⟩
  · have hfail : ∃ x, (y.clients c).fail = some x := by
      unfold UdpClient.fail
      cases h : (y.clients c).pc with
      | idle => exact absurd h hpc
      | finishing => exact absurd h hfin
      | awaitAck | sending i | awaitResult => exact ⟨_, rfl⟩
    obtain ⟨x, hx⟩ := hfail
    exact ⟨.clientError c, y.setClient c x, decide_eq_true rfl, by rw [UdpSystem.step, hx]; rfl⟩

/-- What a round has stored so far. -/
def Stores (addr : Ipv6Addr) (c : SockUdpEp) (y z : UdpSystem) : Prop :=
  (z.clients c).pc ≠ .idle ∧ (z.clients c).neighbours = (y.clients c).neighbours ∨
    (z.clients c).pc = .idle ∧ ∃ throughput, (z.clients c).neighbours
      = (StatOp.throughput addr throughput).apply (y.clients c).neighbours

theorem stores_step [Riot] {u : UdpSystem} (hround : InRound c z e) (h : Stores addr c y z)
    (hstep : UdpSystem.step addr z e = some u) : Stores addr c y u := by
  have hsame := (h.resolve_right fun hidle => hround hidle.1).2
  rcases client_step (c := c) hstep with (⟨-, hsame'⟩ | ⟨-, hturn⟩) | ⟨hidle, -⟩
  · exact Or.inl ⟨hsame' ▸ hround, hsame' ▸ hsame⟩
  · rcases clientTurn_stores hturn with ⟨hpc, hkept⟩ | ⟨hpc, hstored⟩
    · exact Or.inl ⟨hpc, hkept.trans hsame⟩
    · exact Or.inr ⟨hpc, _, by rw [hstored, hsame]⟩
  · exact absurd hidle hround

/-! ## The server -/

/-- What a call of the server returns in a step. -/
def UdpSystem.serverEvent (y : UdpSystem) : UdpEvent → Option ServerEvent
  | .serverRecv k now stop => y.toServer[k]?.map fun d => .datagram d.src d.payload now stop
  | .serverError stop => some (.error stop)
  | .serverWake => some .wake
  | .start .. | .clientRecv .. | .clientSend .. | .clientError _ | .clientStore _ => none

/-- Whether a step is a turn of the server in its test. -/
def UdpSystem.serverTurn (y : UdpSystem) (e : UdpEvent) : Bool :=
  match y.server.pc, y.serverEvent e with
  | .inner _, some (.datagram ..) => true
  | .inner _, some (.error _) => true
  | .sleeping, some .wake => true
  | _, _ => false

/-- How many turns a test may still take. -/
def UdpServer.rank (s : UdpServer) : Nat :=
  match s.pc with
  | .inner i => s.udpPacket.packetCount.toNat - i + 1
  | .sleeping => 1
  | .outer | .stopped | .trapped _ => 0

/-- The server is in a test. -/
def InTest (y : UdpSystem) (_ : UdpEvent) : Prop := y.server.pc.testing = true

/-- While the server serves it is in its loop. -/
def UdpServer.Sound (s : UdpServer) : Prop := s.Serving → s.InLoop

theorem UdpServer.Sound.step [Riot] {s : UdpServer} (h : s.Sound) (e : ServerEvent) :
    (s.step e).1.Sound := by
  intro hserving
  by_cases hs : s.Serving
  · exact (h hs).step ((UdpServer.step_serving_iff (h hs) e).mp hserving)
  · rw [UdpServer.step_of_not_serving hs] at hserving
    exact absurd hserving hs

theorem rank_endTest_le (s : UdpServer) (i : Nat) (stop : UInt32) :
    (s.endTest i stop).rank ≤ 1 := by
  unfold UdpServer.endTest UdpServer.rank
  dsimp only
  split_ifs <;> simp

theorem rank_innerLoop_le (s : UdpServer) (i : Nat) (stop : UInt32) :
    (s.innerLoop i stop).rank ≤ s.udpPacket.packetCount.toNat - i + 1 := by
  unfold UdpServer.innerLoop
  split_ifs with hi hsize
  · exact Nat.zero_le _
  · exact Nat.le_refl _
  · have := rank_endTest_le s i stop
    omega

/-- **A packet or a timeout brings the end of a test nearer.** -/
theorem rank_inner [Riot] {s : UdpServer} (h : s.Sound) {i : Nat} (hpc : s.pc = .inner i)
    {e : ServerEvent} (he : e ≠ .wake) : (s.step e).1.rank + 1 ≤ s.rank := by
  have hserving : s.Serving := by
    rw [UdpServer.Serving, hpc]
    trivial
  obtain ⟨hi, -⟩ := (h hserving).inner i hpc
  have hrank : s.rank = s.udpPacket.packetCount.toNat - i + 1 := by rw [UdpServer.rank, hpc]
  rw [hrank]
  cases e with
  | datagram src payload now stop =>
    rw [step_inner hpc]
    unfold UdpServer.data
    dsimp only
    split
    · have := rank_endTest_le { s with remote := src } i stop
      omega
    · have := rank_innerLoop_le
        { s with remote := src, startTimer := if i = 0 then now else s.startTimer } (i + 1) stop
      dsimp only at this
      omega
  | error stop =>
    have hstep : s.step (.error stop) = (s.endTest i stop, []) := by
      unfold UdpServer.step
      rw [hpc]
    have := rank_endTest_le s i stop
    rw [hstep]
    dsimp only
    omega
  | wake => exact absurd rfl he

theorem rank_wake [Riot] {s : UdpServer} (hpc : s.pc = .sleeping) :
    (s.step .wake).1.rank + 1 ≤ s.rank := by
  have hrank : s.rank = 1 := by rw [UdpServer.rank, hpc]
  have hstep : (s.step .wake).1.rank = 0 := by
    unfold UdpServer.step
    rw [hpc]
    rfl
  rw [hrank, hstep]

/-- **The server takes a step, or is left alone.** -/
theorem server_step [Riot] (h : UdpSystem.step addr y e = some z) :
    z.server = (y.serverEvent e).elim y.server fun e' => (y.server.step e').1 := by
  cases e with
  | serverRecv k now stop =>
    dsimp only [UdpSystem.step] at h
    split at h
    · next d _ hd =>
      obtain rfl := Option.some.inj h
      rw [UdpSystem.serverEvent, hd]
      rfl
    · next d _ hd =>
      obtain rfl := Option.some.inj h
      rw [UdpSystem.serverEvent, hd]
      rfl
    · cases h
  | serverError stop =>
    obtain rfl := Option.some.inj h
    rfl
  | serverWake =>
    obtain rfl := Option.some.inj h
    rfl
  | start c' pad sockUdpSend =>
    dsimp only [UdpSystem.step] at h
    split_ifs at h
    all_goals
      obtain rfl := Option.some.inj h
      rfl
  | clientRecv c' k =>
    dsimp only [UdpSystem.step] at h
    split at h
    · split_ifs at h
      obtain ⟨x, -, rfl⟩ := Option.map_eq_some_iff.mp h
      rfl
    · cases h
  | clientSend c' payload =>
    dsimp only [UdpSystem.step] at h
    split at h
    · split_ifs at h
      obtain rfl := Option.some.inj h
      rfl
    · cases h
  | clientError c' =>
    obtain ⟨x, -, rfl⟩ := Option.map_eq_some_iff.mp h
    rfl
  | clientStore c' =>
    dsimp only [UdpSystem.step] at h
    split_ifs at h
    obtain rfl := Option.some.inj h
    rfl

theorem sound_step [Riot] (h : y.server.Sound) (hstep : UdpSystem.step addr y e = some z) :
    z.server.Sound := by
  rw [server_step hstep]
  cases y.serverEvent e with
  | none => exact h
  | some e' => exact h.step e'

theorem ranked_inTest [Riot] :
    Ranked (UdpSystem.step addr) UdpSystem.serverTurn InTest (fun y => y.server.Sound)
      (fun y => y.server.rank) where
  keep := fun _ _ _ _ h hstep => sound_step h hstep
  down := by
    intro y e z htest h hstep
    rw [server_step hstep, UdpSystem.serverTurn]
    unfold InTest at htest
    cases hpc : y.server.pc with
    | outer | stopped | trapped t =>
      rw [hpc] at htest
      cases htest
    | inner i =>
      cases y.serverEvent e with
      | none => exact Nat.le_refl _
      | some e' =>
        cases e' with
        | datagram src payload now stop => exact rank_inner h hpc (by simp)
        | error stop => exact rank_inner h hpc (by simp)
        | wake =>
          have hstay : (y.server.step .wake).1 = y.server := by
            unfold UdpServer.step
            rw [hpc]
          exact Nat.le_of_eq (congrArg UdpServer.rank hstay)
    | sleeping =>
      cases y.serverEvent e with
      | none => exact Nat.le_refl _
      | some e' =>
        cases e' with
        | datagram src payload now stop =>
          have hstay : (y.server.step (.datagram src payload now stop)).1 = y.server := by
            unfold UdpServer.step
            rw [hpc]
          exact Nat.le_of_eq (congrArg UdpServer.rank hstay)
        | error stop =>
          have hstay : (y.server.step (.error stop)).1 = y.server := by
            unfold UdpServer.step
            rw [hpc]
          exact Nat.le_of_eq (congrArg UdpServer.rank hstay)
        | wake => exact rank_wake hpc

theorem server_rank_le (s : UdpServer) : s.rank ≤ 256 := by
  have hcount := s.udpPacket.packetCount.toNat_lt
  unfold UdpServer.rank
  split
  all_goals omega

/-- A server in a test can always take a turn: its receive fails after a time. -/
theorem exists_serverTurn [Riot] (htest : y.server.pc.testing = true) :
    ∃ e z, y.serverTurn e = true ∧ UdpSystem.step addr y e = some z := by
  cases hpc : y.server.pc with
  | outer | stopped | trapped t =>
    rw [hpc] at htest
    cases htest
  | inner i =>
    refine ⟨.serverError 0, _, ?_, rfl⟩
    simp [UdpSystem.serverTurn, UdpSystem.serverEvent, hpc]
  | sleeping =>
    refine ⟨.serverWake, _, ?_, rfl⟩
    simp [UdpSystem.serverTurn, UdpSystem.serverEvent, hpc]

/-! ## Both -/

/-- The client at `c` gets to the end of its round and stores one result there. -/
structure RoundEnds [Riot] (addr : Ipv6Addr) (c : SockUdpEp) (y : UdpSystem) : Prop where
  turn : ∃ e z, e.turnOf c = true ∧ UdpSystem.step addr y e = some z
  bound : ∀ later z, Meets (UdpSystem.step addr) (InRound c) y later →
    run (UdpSystem.step addr) y later = some z →
    turns (UdpSystem.step addr) (fun _ e => e.turnOf c) y later ≤ 258 ∧ Stores addr c y z

/-- The server gets to the end of its test. -/
structure TestEnds [Riot] (addr : Ipv6Addr) (y : UdpSystem) : Prop where
  turn : ∃ e z, y.serverTurn e = true ∧ UdpSystem.step addr y e = some z
  bound : ∀ later z, Meets (UdpSystem.step addr) InTest y later →
    run (UdpSystem.step addr) y later = some z →
    turns (UdpSystem.step addr) UdpSystem.serverTurn y later ≤ 256

/--
**Neither a client nor the server can be kept in a round**, whatever the network, the other clients
and they themselves have done before and do: a client in a round and a server in a test can always
take a turn, and after a bounded number of their own turns the round or the test is over. A round
stores one result, when it ends.
-/
theorem rounds_come_to_end [Riot] (addr : Ipv6Addr) (server : UdpServer) (junk : UdpData)
    (neighbours : SockUdpEp → List NeighborEntryl) (events : List UdpEvent) (y : UdpSystem)
    (hrun : run (UdpSystem.step addr) (.boot server junk neighbours) events = some y) :
    (∀ c, (y.clients c).pc ≠ .idle → RoundEnds addr c y) ∧
      (y.server.pc.testing = true → TestEnds addr y) := by
  refine ⟨fun c hpc => ⟨exists_turn hpc, fun later z hlater hlaterRun => ⟨?_, ?_⟩⟩,
    fun htest => ⟨exists_serverTurn htest, fun later z hlater hlaterRun => ?_⟩⟩
  · have hpackets : (y.clients c).InPackets :=
      run_preserves (I := fun y => (y.clients c).InPackets)
        (fun _ _ _ h hstep => inPackets_step h hstep)
        (inPackets_of_ne (by simp [UdpSystem.boot])) hrun
    have hturns := (ranked_inRound c).turns_le hlater hpackets hlaterRun
    have hrank := rank_le (y.clients c)
    omega
  · exact run_invariant (I := Stores addr c y)
      (fun _ _ _ hround h hstep => stores_step hround h hstep) hlater (Or.inl ⟨hpc, rfl⟩) hlaterRun
  · have hsound : y.server.Sound :=
      run_preserves (I := fun y => y.server.Sound) (fun _ _ _ h hstep => sound_step h hstep)
        (fun _ => UdpServer.inLoop_thread server junk) hrun
    have hturns := ranked_inTest.turns_le hlater hsound hlaterRun
    have hrank := server_rank_le y.server
    omega

attribute [local instance] gnrcSock

/-- The first client is in its round and the server in its test when the request of the second one
arrives. -/
theorem rounds_come_to_end_twoClients :
    ∃ y, run (UdpSystem.step (linkLocal 9)) smallSystem (twoClients.take 6) = some y ∧
      RoundEnds (linkLocal 9) (clientAt 1) y ∧ RoundEnds (linkLocal 9) (clientAt 2) y ∧
      TestEnds (linkLocal 9) y := by
  have hrun : ∃ y, run (UdpSystem.step (linkLocal 9)) smallSystem (twoClients.take 6) = some y ∧
      (y.clients (clientAt 1)).pc ≠ .idle ∧ (y.clients (clientAt 2)).pc ≠ .idle ∧
      y.server.pc.testing = true := exists_run_of_any (by decide +kernel)
  obtain ⟨y, hrun, hfirst, hsecond, htest⟩ := hrun
  have hends := rounds_come_to_end (linkLocal 9) _ _ _ (twoClients.take 6) y hrun
  exact ⟨y, hrun, hends.1 _ hfirst, hends.1 _ hsecond, hends.2 htest⟩

end Dca
