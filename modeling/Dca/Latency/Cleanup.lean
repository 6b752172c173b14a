import Dca.Latency.Steps
import Dca.Lib.Sweep

/-!
# The cleanup loop behind a run

The loop compares its index with `cib_avail`, which it reads again for each turn. A message that is
taken out makes the queue shorter while the index goes on, so that the loop sees about half of a
queue of stale replies, and what it has put back stands behind what it has not seen.
-/

namespace Dca

open CLib

/-! ## The statement -/

/-- The packet of a message that the loop takes out. -/
def Msg.stalePacket : Msg → Option Packet
  | .rcv (.icmpv6 icmpv6 :: rest) => some (.icmpv6 icmpv6 :: rest)
  | _ => none

/-- The packets that the loop has released, as a history variable. -/
def recordRelease (s : Measure) : MeasureEvent → Measure → List Packet → List Packet
  | .cleanup, t, released =>
    if t.pc = .idle then released else released ++ (s.queue.head?.bind Msg.stalePacket).toList
  | _, _, released => released

/-- The loop, without messages that arrive meanwhile. -/
def cleanupRun [NetIpv6Addr] (cap : Nat) (count : UInt32) (s : Measure) (n : Nat) :
    Option (Measure × List Packet) :=
  run (withHistory (measureStep cap count) recordRelease) (s, []) (List.replicate n .cleanup)

/--
The loop ends. It leaves the messages that are no stale replies in their order, and it has released
the packet of each stale reply once.
-/
structure CleansUp [NetIpv6Addr] (cap : Nat) (count : UInt32) (s : Measure) : Prop where
  ends : ∃ n t released, cleanupRun cap count s n = some (t, released) ∧ t.pc = .idle
  leaves : ∀ n t released, cleanupRun cap count s n = some (t, released) → t.pc = .idle →
    t.queue = s.queue.filter (fun m => !m.isIcmpv6) ∧
      released = s.queue.filterMap Msg.stalePacket

/-! ## One turn -/

variable {cap : Nat} {count : UInt32} {s : Measure} {i : Nat}

/-- A turn of the loop. -/
def Measure.turn (s : Measure) (m : Msg) (queue : List Msg) (i : Nat) : Measure :=
  { s with
    pc := .cleaning (i + 1)
    queue := if m.isIcmpv6 then queue else queue ++ [m] }

theorem cleanup_turn [NetIpv6Addr] (count : UInt32) (released : List Packet) {m : Msg}
    {queue : List Msg}
    (hpc : s.pc = .cleaning i) (hqueue : s.queue = m :: queue) (hcap : s.queue.length ≤ cap)
    (hi : i < s.queue.length) :
    withHistory (measureStep cap count) recordRelease (s, released) .cleanup
      = some (s.turn m queue i, released ++ m.stalePacket.toList) := by
  have hroom : enqueue cap queue m = queue ++ [m] := by
    rw [hqueue, List.length_cons] at hcap
    exact if_pos hcap
  refine withHistory_eq_some.mpr ⟨?_, ?_⟩
  · dsimp only [measureStep]
    rw [hpc]
    dsimp only
    rw [hqueue] at hi ⊢
    dsimp only
    rw [if_pos hi, hroom]
    rfl
  · rw [recordRelease, hqueue]
    exact (if_neg (by simp [Measure.turn])).symm

theorem cleanup_stop [NetIpv6Addr] (cap : Nat) (count : UInt32) (released : List Packet)
    (hpc : s.pc = .cleaning i) (hi : s.queue.length ≤ i) :
    withHistory (measureStep cap count) recordRelease (s, released) .cleanup
      = some ({ s with pc := .idle }, released) := by
  refine withHistory_eq_some.mpr ⟨?_, ?_⟩
  · dsimp only [measureStep]
    rw [hpc]
    dsimp only
    cases hqueue : s.queue with
    | nil => rfl
    | cons m queue =>
      dsimp only
      rw [hqueue] at hi
      rw [if_neg (Nat.not_lt.mpr hi)]
  · show released = recordRelease s .cleanup { s with pc := .idle } released
    rw [recordRelease, if_pos rfl]

/-! ## The loop -/

/-- What a turn puts back is what is kept of its message. -/
theorem queue_turn (s : Measure) (m : Msg) (a b : List Msg) (i : Nat) :
    (s.turn m (b ++ kept Msg.isIcmpv6 a) i).queue = b ++ kept Msg.isIcmpv6 (a ++ [m]) := by
  rw [kept_append, ← List.append_assoc]
  dsimp only [Measure.turn]
  split_ifs with hstale
  · rw [show kept Msg.isIcmpv6 [m] = [] by simp [kept, hstale], List.append_nil]
  · rw [show kept Msg.isIcmpv6 [m] = [m] by simp [kept, hstale]]

/--
**The loop sweeps the queue**, by induction on what it has not seen: `a` is what it has seen, and
what it has kept of that is at the end of the queue.
-/
theorem sweep_run [NetIpv6Addr] (count : UInt32) (b : List Msg) {a : List Msg} {s : Measure}
    (hpc : s.pc = .cleaning a.length)
    (hqueue : s.queue = b ++ kept Msg.isIcmpv6 a) (hcap : s.queue.length ≤ cap)
    (hrunning : ∀ a' m, a = a' ++ [m] → a'.length < (m :: b ++ kept Msg.isIcmpv6 a').length) :
    ∃ n t a' b', a ++ b = a' ++ b' ∧ SweepEnds Msg.isIcmpv6 a' b' ∧
      run (withHistory (measureStep cap count) recordRelease) (s, a.filterMap Msg.stalePacket)
        (List.replicate n .cleanup) = some (t, a'.filterMap Msg.stalePacket) ∧
      t.pc = .idle ∧ t.queue = b' ++ kept Msg.isIcmpv6 a' := by
  induction b generalizing a s with
  | nil =>
    have hstop : s.queue.length ≤ a.length := by
      rw [hqueue, List.nil_append]
      exact List.length_filter_le _ a
    refine ⟨1, { s with pc := .idle }, a, [], rfl, ⟨?_, hrunning⟩, ?_, rfl, hqueue⟩
    · rwa [← hqueue]
    · exact run_cons_eq_some.mpr ⟨_, cleanup_stop cap count _ hpc hstop, rfl⟩
  | cons m b ih =>
    rcases Nat.lt_or_ge a.length s.queue.length with hi | hstop
    · have hturn := cleanup_turn count (a.filterMap Msg.stalePacket) hpc hqueue hcap hi
      have hqueue' := queue_turn s m a b a.length
      have hcap' : (s.turn m (b ++ kept Msg.isIcmpv6 a) a.length).queue.length ≤ cap := by
        -- a turn does not make the queue longer
        rw [hqueue, List.length_append, List.length_cons] at hcap
        rw [hqueue', List.length_append, kept_append, List.length_append]
        have : (kept Msg.isIcmpv6 [m]).length ≤ 1 := List.length_filter_le _ [m]
        omega
      have hrunning' : ∀ a' m', a ++ [m] = a' ++ [m'] →
          a'.length < (m' :: b ++ kept Msg.isIcmpv6 a').length := by
        intro a' m' heq
        obtain ⟨rfl, heq'⟩ := List.append_inj' heq rfl
        obtain rfl := List.singleton_inj.mp heq'
        rwa [hqueue] at hi
      have hpc' : (s.turn m (b ++ kept Msg.isIcmpv6 a) a.length).pc
          = .cleaning (a ++ [m]).length := by
        rw [List.length_append]
        rfl
      obtain ⟨n, t, a', b', hsplit, hends, hrun, hidle, hleft⟩ := ih hpc' hqueue' hcap' hrunning'
      refine ⟨n + 1, t, a', b', ?_, hends, ?_, hidle, hleft⟩
      · rw [← hsplit, List.append_assoc]
        rfl
      · rw [List.filterMap_append] at hrun
        exact run_cons_eq_some.mpr ⟨_, hturn, hrun⟩
    · refine ⟨1, { s with pc := .idle }, a, m :: b, rfl, ⟨?_, hrunning⟩, ?_, rfl, hqueue⟩
      · rwa [← hqueue]
      · exact run_cons_eq_some.mpr ⟨_, cleanup_stop cap count _ hpc hstop, rfl⟩

/-- At its end the loop is left. -/
theorem cleanup_idle [NetIpv6Addr] {released : List Packet} (hpc : s.pc = .idle) :
    withHistory (measureStep cap count) recordRelease (s, released) .cleanup = none := by
  have hnone : measureStep cap count s .cleanup = none := by
    dsimp only [measureStep]
    rw [hpc]
  rw [withHistory, hnone]
  rfl

theorem isSome_stalePacket (m : Msg) : m.stalePacket.isSome = m.isIcmpv6 := by
  rcases m with ⟨_ | ⟨_ | _ | _, _⟩⟩ | _ | _ <;> rfl

theorem stalePacket_of_kept {q : List Msg} (h : ∀ m ∈ q, m.isIcmpv6 = false) :
    q.filterMap Msg.stalePacket = [] := by
  rw [List.filterMap_eq_nil_iff]
  intro m hm
  rw [← Option.not_isSome_iff_eq_none, isSome_stalePacket, h m hm]
  exact Bool.false_ne_true

/-- A queue of two stale replies is left with the second one. -/
theorem not_cleansUp_two [NetIpv6Addr] {m m' : Msg} (hpc : s.pc = .cleaning 0)
    (hqueue : s.queue = [m, m'])
    (hm : m.isIcmpv6 = true) (hm' : m'.isIcmpv6 = true) (hcap : 2 ≤ cap) :
    ¬ CleansUp cap count s := by
  intro h
  have hlen : s.queue.length = 2 := by rw [hqueue]; rfl
  have hturn := cleanup_turn count [] hpc hqueue (hlen ▸ hcap) (by rw [hlen]; decide)
  have hleft : (s.turn m [m'] 0).queue = [m'] := if_pos hm
  have hstop := cleanup_stop (s := s.turn m [m'] 0) cap count ([] ++ m.stalePacket.toList) rfl
    (by rw [hleft]; exact Nat.le_refl 1)
  have hrun : cleanupRun cap count s 2 = some _ :=
    run_cons_eq_some.mpr ⟨_, hturn, run_cons_eq_some.mpr ⟨_, hstop, rfl⟩⟩
  have hqueue' := (h.leaves 2 _ _ hrun rfl).1
  have hnil : s.queue.filter (fun m => !m.isIcmpv6) = [] := by
    rw [hqueue]
    simp [hm, hm']
  have hsame : [m'] = [] := hleft.symm.trans (hqueue'.trans hnil)
  cases hsame

/-- A run that is answered three times before the second ping, and twice more before it ends. -/
def duplicatesRun : List MeasureEvent :=
  .start smallConfig (linkLocal 1) smallSend
    :: [0, 1, 2, 0, 1].map (fun seq => .arrive (smallReply 1 seq))
    ++ List.replicate 3 (.receive 2000 smallSend) ++ [.finish]

attribute [local instance] gnrcIpv6Addr

/-- Behind that run the second of two stale replies stays in the queue. -/
theorem not_cleansUp :
    ∃ s, run (measureStep 8 defaultCount) (.boot [] []) duplicatesRun = some s ∧
      s.pc = .cleaning 0 ∧ ¬ CleansUp 8 defaultCount s := by
  have hrun : ∃ s, run (measureStep 8 defaultCount) (.boot [] []) duplicatesRun = some s ∧
      s.pc = .cleaning 0 ∧ s.queue = [.rcv (smallReply 1 0), .rcv (smallReply 1 1)] :=
    exists_run_of_any (by decide)
  obtain ⟨s, hrun, hpc, hqueue⟩ := hrun
  exact ⟨s, hrun, hpc, not_cleansUp_two hpc hqueue rfl rfl (by decide)⟩

/--
**The loop cleans up exactly the queues that it sees enough of**: nothing stale is among the last
messages, one fewer than there are stale ones, and what stands behind comes to the front unharmed.
-/
theorem cleansUp_iff [NetIpv6Addr] (cap : Nat) (count : UInt32) (s : Measure)
    (hpc : s.pc = .cleaning 0) (hcap : s.queue.length ≤ cap) :
    CleansUp cap count s ↔ SweepsClean Msg.isIcmpv6 s.queue := by
  obtain ⟨n, t, a, b, hsplit, hends, hrun, hidle, hleft⟩ :=
    sweep_run count s.queue (a := []) hpc (List.append_nil _).symm hcap
      (fun a' m heq => absurd heq (by simp))
  rw [List.nil_append] at hsplit
  have hswept := hends.eq_kept_iff
  rw [← hsplit, ← hleft] at hswept
  constructor
  · intro h
    exact hswept.mp (h.leaves n t _ hrun hidle).1
  · intro h
    have hqueue := hswept.mpr h
    refine ⟨⟨n, t, _, hrun, hidle⟩, ?_⟩
    intro n' t' released' hrun' hidle'
    obtain ⟨rfl, rfl⟩ := Prod.mk.inj (run_replicate_unique hrun' (cleanup_idle hidle') hrun
      (cleanup_idle hidle))
    refine ⟨hqueue, ?_⟩
    have hb : ∀ m ∈ b, m.isIcmpv6 = false := by
      have hmem : ∀ m ∈ t'.queue, m.isIcmpv6 = false := by
        rw [hqueue]
        intro m hm
        simpa using (List.mem_filter.mp hm).2
      intro m hm
      exact hmem m (by rw [hleft]; exact List.mem_append_left _ hm)
    rw [hsplit, List.filterMap_append, stalePacket_of_kept hb, List.append_nil]

/-- A stale reply with one other message behind it. -/
theorem cleansUp_oneStale :
    CleansUp 8 defaultCount
      { Measure.boot [.rcv (smallReply 1 0), .other 7] [] with pc := .cleaning 0 } :=
  (cleansUp_iff 8 defaultCount _ rfl (by decide)).mpr (by decide)

end Dca
