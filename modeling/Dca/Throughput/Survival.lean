import Dca.Throughput.Server

/-!
# What the throughput server survives

Once the thread is in its loop, three things stop it: a datagram of one to eight bytes in the outer
loop that is no request, a request for packets of size zero, and a test without measurable
duration. Every other datagram and every error leads back to a receive.
-/

namespace Dca

open CLib

namespace UdpServer

/-- The thread is still in its loop, in or before a receive. -/
def Serving (s : UdpServer) : Prop :=
  match s.pc with
  | .outer | .inner _ | .sleeping => True
  | .stopped | .trapped _ => False

/-- A running server serves, and a start of the server that returns 0 leaves a serving one. -/
structure Alive (s : UdpServer) : Prop where
  running : s.serverRunning = true → s.Serving
  start : ∀ threadCreate sockUdpCreate junk,
    (s.dbStartUdpServer threadCreate sockUdpCreate junk).2 = 0 →
      (s.dbStartUdpServer threadCreate sockUdpCreate junk).1.Serving

/-- The server is alive after every part of the events. -/
def Survives [Riot] (s : UdpServer) (events : List ServerEvent) : Prop :=
  ∀ k, (s.serve (events.take k)).Alive

/-- The server survives everything, from its loop on. -/
def SurvivesAll : Prop :=
  ∀ [Riot] (s : UdpServer) junk events, (s.thread true junk).Survives events

/-- A request, after what the datagram leaves of the last one: it is a `START_TEST`, has no packets
of size zero, and without packets it comes at another time than the start of the last test. -/
structure GoodRequest (s : UdpServer) (p : UdpData) (stop : UInt32) : Prop where
  id : p.id = startTest
  size : 0 < p.packetCount → 0 < p.packetSize
  time : p.packetCount = 0 → stop - 100 ≠ s.startTimer

instance (s : UdpServer) (p : UdpData) (stop : UInt32) : Decidable (GoodRequest s p stop) :=
  decidable_of_iff (p.id = startTest ∧ (0 < p.packetCount → 0 < p.packetSize)
      ∧ (p.packetCount = 0 → stop - 100 ≠ s.startTimer))
    ⟨fun ⟨hid, hsize, htime⟩ => ⟨hid, hsize, htime⟩, fun h => ⟨h.id, h.size, h.time⟩⟩

/-- What a datagram has to be in each place. -/
def GoodDatagram (s : UdpServer) (payload : List UInt8) (now stop : UInt32) : Prop :=
  match s.pc with
  | .outer => payload ≠ [] → payload.length ≤ sizeofUdpData →
      GoodRequest s (s.udpPacket.overwrite payload) stop
  | .inner i =>
    if payload.length ≤ s.udpPacket.packetSize.toNat then
      i + 1 = s.udpPacket.packetCount.toNat → stop - 100 ≠ if i = 0 then now else s.startTimer
    else stop - 100 - packetTimeout ≠ s.startTimer
  | _ => True

/-- The condition on a step: a request is a good one, and when a test ends, by its last packet, a
datagram that is too long or an error, the measured duration is not zero. -/
def StaysInLoop (s : UdpServer) : ServerEvent → Prop
  | .datagram _ payload now stop => s.GoodDatagram payload now stop
  | .error stop =>
    match s.pc with
    | .inner _ => stop - 100 - packetTimeout ≠ s.startTimer
    | _ => True
  | .wake => True

/-- What holds in the loop: the inner loop waits for a packet that is missing. -/
structure InLoop (s : UdpServer) : Prop where
  running : s.serverRunning = true
  serving : s.Serving
  inner : ∀ i, s.pc = .inner i → i < s.udpPacket.packetCount.toNat ∧ s.udpPacket.packetSize ≠ 0

variable {s : UdpServer}

theorem toNat_pos (x : UInt8) : 0 < x.toNat ↔ 0 < x := by
  rw [UInt8.lt_iff_toNat_lt]
  rfl

theorem ne_zero_iff_pos (x : UInt8) : x ≠ 0 ↔ 0 < x := by
  rw [← toNat_pos, Nat.pos_iff_ne_zero, ne_eq, ne_eq, ← UInt8.toNat_inj]
  rfl

/-! ## From one call to the next -/

theorem endTest_serving (i : Nat) (stop : UInt32) :
    (s.endTest i stop).Serving ↔ s.stopTime i stop ≠ s.startTimer := by
  have hzero : s.stopTime i stop - s.startTimer = 0 ↔ s.stopTime i stop = s.startTimer :=
    ⟨fun h => by rw [← UInt32.sub_add_cancel (s.stopTime i stop) s.startTimer, h, UInt32.zero_add],
      fun h => by rw [h, UInt32.sub_self]⟩
  unfold endTest
  dsimp only
  split_ifs with h
  · exact ⟨False.elim, fun hne => hne (hzero.mp h)⟩
  · exact ⟨fun _ => fun heq => h (hzero.mpr heq), fun _ => trivial⟩

theorem endTest_running (i : Nat) (stop : UInt32) :
    (s.endTest i stop).serverRunning = s.serverRunning ∧ ∀ j, (s.endTest i stop).pc ≠ .inner j := by
  unfold endTest
  dsimp only
  split_ifs
  · exact ⟨rfl, fun j h => by cases h⟩
  · exact ⟨rfl, fun j h => by cases h⟩

theorem innerLoop_serving {i : Nat} (stop : UInt32) :
    (s.innerLoop i stop).Serving ↔
      if i < s.udpPacket.packetCount.toNat then s.udpPacket.packetSize ≠ 0
      else s.stopTime i stop ≠ s.startTimer := by
  unfold innerLoop
  split_ifs with hi hsize
  · exact ⟨False.elim, fun hne => hne hsize⟩
  · exact ⟨fun _ => hsize, fun _ => trivial⟩
  · exact endTest_serving i stop

theorem innerLoop_inner {i j : Nat} {stop : UInt32} (h : (s.innerLoop i stop).pc = .inner j) :
    j < (s.innerLoop i stop).udpPacket.packetCount.toNat ∧
      (s.innerLoop i stop).udpPacket.packetSize ≠ 0 := by
  unfold innerLoop at h ⊢
  split_ifs at h ⊢ with hi hsize
  · obtain rfl := ServerPc.inner.inj h
    exact ⟨hi, hsize⟩
  · exact absurd h ((endTest_running i stop).2 j)

theorem innerLoop_running (i : Nat) (stop : UInt32) :
    (s.innerLoop i stop).serverRunning = s.serverRunning := by
  unfold innerLoop
  split_ifs
  · rfl
  · rfl
  · exact (endTest_running i stop).1

theorem inLoop_thread (s : UdpServer) (junk : UdpData) : (s.thread true junk).InLoop := by
  refine ⟨rfl, trivial, ?_⟩
  intro i hpc
  cases hpc

/-- With the flag set, being alive is being in the loop. -/
theorem alive_iff (h : s.serverRunning = true) : s.Alive ↔ s.Serving := by
  constructor
  · intro halive
    exact halive.running h
  · intro hserving
    refine ⟨fun _ => hserving, ?_⟩
    intro threadCreate sockUdpCreate junk _
    rw [dbStartUdpServer, h]
    exact hserving

section Steps

variable [Riot]

/-- **A datagram in the outer loop.** -/
theorem request_serving (hpc : s.pc = .outer) (src : SockUdpEp) (payload : List UInt8)
    (stop : UInt32) :
    (s.request src payload stop).1.Serving ↔ (payload ≠ [] → payload.length ≤ sizeofUdpData →
      GoodRequest s (s.udpPacket.overwrite payload) stop) := by
  have houter : ∀ t : UdpServer, t.pc = .outer → t.Serving := by
    intro t ht
    rw [Serving, ht]
    trivial
  unfold request
  by_cases hlen : payload.length ≤ sizeofUdpData
  · rw [Riot.sockUdpRecv_fits hlen]
    cases payload with
    | nil => exact ⟨fun _ hne => absurd rfl hne, fun _ => houter _ hpc⟩
    | cons b rest =>
      dsimp only
      generalize s.udpPacket.overwrite (b :: rest) = p
      split_ifs with hid
      · -- a request: the inner loop starts with `i = 0`
        have hserving := innerLoop_serving (s := { s with
          remote := src, udpPacket := { p with id := testAck } }) (i := 0) stop
        refine hserving.trans ?_
        have hcount : 0 < p.packetCount.toNat ↔ 0 < p.packetCount := toNat_pos p.packetCount
        have hzero : ¬ 0 < p.packetCount ↔ p.packetCount = 0 := by
          rw [← ne_zero_iff_pos, not_not]
        have hsize : p.packetSize ≠ 0 ↔ 0 < p.packetSize := ne_zero_iff_pos p.packetSize
        dsimp only [stopTime]
        -- without packets the inner loop is skipped and the test ends at once
        by_cases hpos : 0 < p.packetCount
        · rw [if_pos (hcount.mpr hpos), hsize]
          constructor
          · intro hne _ _
            exact ⟨hid, fun _ => hne, fun heq => absurd hpos (hzero.mpr heq)⟩
          · intro hgood
            exact (hgood (List.cons_ne_nil b rest) hlen).size hpos
        · rw [if_neg (fun h => hpos (hcount.mp h)), if_neg (fun h => hpos (hcount.mp h))]
          constructor
          · intro hne _ _
            exact ⟨hid, fun h => absurd h hpos, fun _ => hne⟩
          · intro hgood
            exact (hgood (List.cons_ne_nil b rest) hlen).time (hzero.mp hpos)
      · -- any other id makes the thread return
        exact ⟨False.elim, fun hgood => hid (hgood (List.cons_ne_nil b rest) hlen).id⟩
  · rw [Riot.sockUdpRecv_enobufs (Nat.not_le.mp hlen)]
    exact ⟨fun _ _ h => absurd h hlen, fun _ => houter _ hpc⟩

/-- **A datagram in the inner loop.** -/
theorem data_serving {i : Nat} (hi : i < s.udpPacket.packetCount.toNat)
    (hsize : s.udpPacket.packetSize ≠ 0) (src : SockUdpEp) (payload : List UInt8)
    (now stop : UInt32) :
    (s.data i src payload now stop).Serving ↔
      if payload.length ≤ s.udpPacket.packetSize.toNat then
        i + 1 = s.udpPacket.packetCount.toNat → stop - 100 ≠ if i = 0 then now else s.startTimer
      else stop - 100 - packetTimeout ≠ s.startTimer := by
  unfold data
  dsimp only
  by_cases hlen : payload.length ≤ s.udpPacket.packetSize.toNat
  · rw [Riot.sockUdpRecv_fits hlen, if_pos hlen]
    refine (innerLoop_serving stop).trans ?_
    dsimp only [stopTime]
    by_cases hmore : i + 1 < s.udpPacket.packetCount.toNat
    · rw [if_pos hmore]
      exact ⟨fun _ heq => absurd heq (Nat.ne_of_lt hmore), fun _ => hsize⟩
    · rw [if_neg hmore, if_neg hmore]
      have hlast : i + 1 = s.udpPacket.packetCount.toNat := by omega
      exact ⟨fun hne _ => hne, fun hne => hne hlast⟩
  · rw [Riot.sockUdpRecv_enobufs (Nat.not_le.mp hlen), if_neg hlen]
    refine (endTest_serving i stop).trans ?_
    dsimp only [stopTime]
    rw [if_pos hi]

/-- **In the loop the thread stays in the loop exactly under the condition.** -/
theorem step_serving_iff (h : s.InLoop) (e : ServerEvent) :
    (s.step e).1.Serving ↔ s.StaysInLoop e := by
  have hserving := h.serving
  have hinner := h.inner
  obtain ⟨pc, serverRunning, udpPacket, remote, startTimer, endTimer⟩ := s
  cases pc with
  | outer =>
    cases e with
    | datagram src payload now stop => exact request_serving rfl src payload stop
    | error stop => exact ⟨fun _ => trivial, fun _ => trivial⟩
    | wake => exact ⟨fun _ => trivial, fun _ => trivial⟩
  | inner i =>
    obtain ⟨hi, hsize⟩ := hinner i rfl
    cases e with
    | datagram src payload now stop => exact data_serving hi hsize src payload now stop
    | error stop =>
      refine (endTest_serving i stop).trans ?_
      dsimp only [stopTime, StaysInLoop]
      rw [if_pos hi]
    | wake => exact ⟨fun _ => trivial, fun _ => trivial⟩
  | sleeping =>
    cases e with
    | datagram src payload now stop => exact ⟨fun _ => trivial, fun _ => trivial⟩
    | error stop => exact ⟨fun _ => trivial, fun _ => trivial⟩
    | wake => exact ⟨fun _ => trivial, fun _ => trivial⟩
  | stopped => exact absurd hserving id
  | trapped t => exact absurd hserving id

theorem step_running (s : UdpServer) (e : ServerEvent) :
    (s.step e).1.serverRunning = s.serverRunning := by
  unfold step
  split
  · unfold request
    dsimp only
    split
    · rfl
    · rfl
    · split_ifs
      · exact innerLoop_running 0 _
      · rfl
  · unfold data
    dsimp only
    split
    · exact (endTest_running _ _).1
    · exact innerLoop_running _ _
  · exact (endTest_running _ _).1
  · rfl
  · rfl

theorem step_inner (h : s.InLoop) {e : ServerEvent} {j : Nat} (hpc : (s.step e).1.pc = .inner j) :
    j < (s.step e).1.udpPacket.packetCount.toNat ∧ (s.step e).1.udpPacket.packetSize ≠ 0 := by
  unfold step at hpc ⊢
  split at hpc
  · unfold request at hpc ⊢
    dsimp only at hpc ⊢
    split at hpc
    · next houter _ _ => exact absurd (houter.symm.trans hpc) (by simp)
    · next houter _ _ => exact absurd (houter.symm.trans hpc) (by simp)
    · split_ifs at hpc ⊢
      exact innerLoop_inner hpc
  · unfold data at hpc ⊢
    dsimp only at hpc ⊢
    split at hpc
    · exact absurd hpc ((endTest_running _ _).2 j)
    · exact innerLoop_inner hpc
  · exact absurd hpc ((endTest_running _ _).2 j)
  · cases hpc
  · exact h.inner j hpc

/-- **Where the condition holds the thread stays in its loop, with everything that holds there.** -/
theorem InLoop.step (h : s.InLoop) {e : ServerEvent} (hc : s.StaysInLoop e) :
    (s.step e).1.InLoop :=
  ⟨(step_running s e).trans h.running, (step_serving_iff h e).mpr hc, fun _ => step_inner h⟩

/-- Out of the loop nothing leads back. -/
theorem step_of_not_serving (h : ¬ s.Serving) (e : ServerEvent) : (s.step e).1 = s := by
  obtain ⟨pc, serverRunning, udpPacket, remote, startTimer, endTimer⟩ := s
  cases pc with
  | outer => exact absurd trivial h
  | inner i => exact absurd trivial h
  | sleeping => exact absurd trivial h
  | stopped => rfl
  | trapped t => rfl

/-! ## Runs -/

theorem serve_running (s : UdpServer) (events : List ServerEvent) :
    (s.serve events).serverRunning = s.serverRunning := by
  induction events generalizing s with
  | nil => rfl
  | cons e events ih => exact (ih _).trans (step_running s e)

theorem serve_of_not_serving (h : ¬ s.Serving) (events : List ServerEvent) : s.serve events = s := by
  induction events with
  | nil => rfl
  | cons e events ih =>
    show (s.step e).1.serve events = s
    rw [step_of_not_serving h]
    exact ih

/-- **The thread serves after a run exactly when every step of it meets the condition.** -/
theorem serve_serving_iff (h : s.InLoop) (events : List ServerEvent) :
    (s.serve events).Serving ↔ Meets (fun s e => some (s.step e).1) StaysInLoop s events := by
  induction events generalizing s with
  | nil => exact ⟨fun _ => trivial, fun _ => h.serving⟩
  | cons e events ih =>
    show ((s.step e).1.serve events).Serving ↔ _ ∧ ∀ t ∈ some (s.step e).1, _
    by_cases hc : s.StaysInLoop e
    · rw [ih (h.step hc)]
      constructor
      · intro hrest
        refine ⟨hc, ?_⟩
        rintro t ht
        obtain rfl := Option.some.inj ht
        exact hrest
      · intro hmeets
        exact hmeets.2 _ rfl
    · -- the thread is out of the loop from here on
      have hout : ¬ (s.step e).1.Serving := fun hserving => hc ((step_serving_iff h e).mp hserving)
      rw [serve_of_not_serving hout]
      exact ⟨fun hserving => absurd hserving hout, fun hmeets => absurd hmeets.1 hc⟩

/-- A part of a run that serves at its end serves. -/
theorem serving_take {events : List ServerEvent} (h : (s.serve events).Serving) (k : Nat) :
    (s.serve (events.take k)).Serving := by
  by_contra hout
  have hsplit : s.serve events = (s.serve (events.take k)).serve (events.drop k) := by
    rw [serve, serve, serve, ← List.foldl_append, List.take_append_drop]
  rw [hsplit, serve_of_not_serving hout] at h
  exact hout h

/-- **The server survives a run exactly when every request in it is a good one and every test takes
a measurable time.** -/
theorem survives_iff (s : UdpServer) (junk : UdpData) (events : List ServerEvent) :
    (s.thread true junk).Survives events ↔
      Meets (fun s e => some (s.step e).1) StaysInLoop (s.thread true junk) events := by
  have hloop := inLoop_thread s junk
  have halive : ∀ events', ((s.thread true junk).serve events').Alive
      ↔ ((s.thread true junk).serve events').Serving := by
    intro events'
    exact alive_iff ((serve_running _ _).trans hloop.running)
  rw [← serve_serving_iff hloop]
  constructor
  · intro hsurvives
    have hall := (halive _).mp (hsurvives events.length)
    rwa [List.take_length] at hall
  · intro hserving k
    exact (halive _).mpr (serving_take hserving k)

end Steps

/-- A datagram of one byte that is no request stops the thread, and `db_start_udp_server` goes on
to return 0. -/
theorem not_survivesAll : ¬ SurvivesAll := by
  intro h
  let s : UdpServer := ⟨.stopped, false, ⟨0, 0, 0, 0, 0⟩, ⟨0, 0⟩, 0, 0⟩
  have halive := @h gnrcSock s ⟨0, 0, 0, 0, 0⟩ [.datagram ⟨1, 1884⟩ [1] 0 0] 1
  have hserving := halive.running rfl
  exact hserving

end UdpServer

end Dca
