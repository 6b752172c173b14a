import Dca.Latency.Steps
import Mathlib.Data.List.Perm.Subperm

/-!
# The timer of a run

A run has one timer. Between two turns of the receive loop either it is armed or its message is in
the queue, and the message says what the number of pings so far calls for. This holds as long as a
run starts when no timer message of an earlier one is left, and it decides when a run may stop.
-/

namespace Dca

open CLib

/-- A timer message, with the run in which it fired. -/
def Msg.timer? : Msg → Option (TimerMsg × Nat)
  | .timer type firedIn => some (type, firedIn)
  | _ => none

/-- The timer messages that are queued or to come. -/
def Measure.outstanding (s : Measure) : List (TimerMsg × Nat) :=
  (s.timer.map fun timer => (timer.1, s.runs)).toList ++ s.queue.filterMap Msg.timer?

/-- What a timer message says about the number of pings that have been sent. -/
def TimerMsg.Due (count sent : Nat) : TimerMsg → Prop
  | .sendNextPing => sent < count
  | .pingFinish => sent = count

/-- There is at most one timer message, it is of this run, and it is due. -/
structure OwnTimer (count : UInt32) (s : Measure) : Prop where
  one : s.outstanding.length ≤ 1
  own : ∀ timer ∈ s.outstanding, timer.2 = s.runs ∧ timer.1.Due count.toNat s.sent.length

/-- What the timer does for a run. -/
structure Timed (count : UInt32) (s : Measure) : Prop where
  sent_eq : s.data.numSent.toNat = s.sent.length
  sent_le : s.sent.length ≤ count.toNat
  count_eq : s.pc = .receiving → s.data.count = count
  timer : s.pc = .receiving → OwnTimer count s
  stop : s.pc = .finishing → s.sent.length = count.toNat ∨ count ≤ s.data.numRecv

/-- A step that starts a run does so when no timer message is left. -/
def StartsQuiet (s : Measure) : MeasureEvent → Prop
  | .start .. => s.outstanding = []
  | _ => True

variable {cap : Nat} {count : UInt32} {s t : Measure} {e : MeasureEvent}

/-! ## Timer messages in the queue -/

theorem timers_enqueue {queue : List Msg} {m : Msg} (h : m.timer? = none) :
    (enqueue cap queue m).filterMap Msg.timer? = queue.filterMap Msg.timer? := by
  unfold enqueue
  split_ifs
  · simp [h]
  · rfl

/-- A message that is put at the end of the queue or lost. -/
theorem timers_requeue (queue : List Msg) (m : Msg) :
    ((enqueue cap queue m).filterMap Msg.timer?).Subperm ((m :: queue).filterMap Msg.timer?) := by
  unfold enqueue
  split_ifs
  · refine List.Perm.subperm (List.Perm.filterMap _ ?_)
    exact List.perm_append_singleton m queue
  · exact ((List.sublist_cons_self m queue).filterMap _).subperm

theorem OwnTimer.subperm (h : OwnTimer count s) (hsub : t.outstanding.Subperm s.outstanding)
    (hruns : t.runs = s.runs) (hsent : t.sent = s.sent) : OwnTimer count t := by
  refine ⟨hsub.length_le.trans h.one, ?_⟩
  intro timer htimer
  rw [hruns, hsent]
  exact h.own timer (hsub.subset htimer)

/-- Firing turns the armed timer into a message, unless the queue is full. -/
theorem outstanding_fire {type : TimerMsg} {due : UInt32} (h : s.timer = some (type, due)) :
    Measure.outstanding { s with timer := none, queue := enqueue cap s.queue (.timer type s.runs) }
      |>.Subperm s.outstanding := by
  have hout : s.outstanding = (Msg.timer type s.runs :: s.queue).filterMap Msg.timer? := by
    rw [Measure.outstanding, h]
    rfl
  rw [hout]
  exact timers_requeue s.queue _

/-! ## Steps of a run -/

/-- **A ping arms the timer with what is due behind it.** -/
theorem schedule_due {data : PingData} {sent : Nat} (hsent : data.numSent.toNat = sent)
    (hlt : sent < data.count.toNat) :
    data.schedule.1.Due data.count.toNat (sent + 1) ∧ (data.numSent + 1).toNat = sent + 1 := by
  have hbound := data.count.toNat_lt
  have hnum : (data.numSent + 1).toNat = sent + 1 := by
    rw [toNat_add_one (by omega), hsent]
  refine ⟨?_, hnum⟩
  unfold PingData.schedule
  split_ifs with hnext
  · rw [UInt32.lt_iff_toNat_lt, hnum] at hnext
    exact hnext
  · rw [UInt32.lt_iff_toNat_lt, hnum] at hnext
    show sent + 1 = data.count.toNat
    omega
  · rw [UInt32.lt_iff_toNat_lt, hnum] at hnext
    show sent + 1 = data.count.toNat
    omega

/-- **A ping while pings are missing and no timer message is left.** -/
theorem timed_ping {env : SendEnv} (hsent : s.data.numSent.toNat = s.sent.length)
    (hlt : s.sent.length < count.toNat) (hcount : s.data.count = count)
    (hqueue : s.queue.filterMap Msg.timer? = []) (hpc : s.pc = .receiving) :
    Timed count (s.ping env) := by
  subst hcount
  obtain ⟨hdue, hnum⟩ := schedule_due hsent hlt
  have hout : (s.ping env).outstanding = [(s.data.schedule.1, s.runs)] := by
    show [(s.data.schedule.1, s.runs)] ++ s.queue.filterMap Msg.timer? = _
    rw [hqueue]
    rfl
  refine ⟨hnum, hlt, fun _ => rfl, fun _ => ⟨?_, ?_⟩, ?_⟩
  · rw [hout]
    exact Nat.le_refl 1
  · rw [hout]
    intro timer htimer
    obtain rfl := List.mem_singleton.mp htimer
    exact ⟨rfl, hdue⟩
  · intro hfin
    exact absurd (hpc.symm.trans hfin) (by decide)

/-- The test of the loop stops a run when enough replies have been counted. -/
theorem Timed.loopTest (h : Timed count s) (hpc : s.pc = .receiving) : Timed count s.loopTest := by
  obtain ⟨pc, heq, hpc' | ⟨rfl, hstop⟩⟩ := loopTest_eq s
  · rw [heq, hpc']
    exact h
  · rw [heq]
    refine ⟨h.sent_eq, h.sent_le, ?_, ?_, ?_⟩
    · intro hrec
      cases hrec
    · intro hrec
      cases hrec
    · intro _
      rw [h.count_eq hpc] at hstop
      exact .inr hstop

/-- A step that changes neither the pings nor the place, and adds no timer message. -/
theorem Timed.frame (h : Timed count s) (hsent : t.data.numSent = s.data.numSent)
    (hcount : t.data.count = s.data.count) (hpings : t.sent = s.sent) (hruns : t.runs = s.runs)
    (hpc : t.pc = s.pc) (hstop : s.pc = .finishing → t.data = s.data)
    (hsub : t.outstanding.Subperm s.outstanding) : Timed count t := by
  refine ⟨?_, ?_, ?_, ?_, ?_⟩
  · rw [hsent, hpings]
    exact h.sent_eq
  · rw [hpings]
    exact h.sent_le
  · rw [hpc, hcount]
    exact h.count_eq
  · rw [hpc]
    intro hrec
    exact (h.timer hrec).subperm hsub hruns hpings
  · rw [hpc, hpings]
    intro hfin
    rw [hstop hfin]
    exact h.stop hfin

/-- Outside of the receive loop only the number of pings is left to say. -/
theorem Timed.leave (h : Timed count s) (hdata : t.data = s.data) (hpings : t.sent = s.sent)
    (hrec : t.pc ≠ .receiving) (hfin : t.pc ≠ .finishing) : Timed count t := by
  refine ⟨?_, ?_, ?_, ?_, ?_⟩
  · rw [hdata, hpings]
    exact h.sent_eq
  · rw [hpings]
    exact h.sent_le
  · intro hpc
    exact absurd hpc hrec
  · intro hpc
    exact absurd hpc hrec
  · intro hpc
    exact absurd hpc hfin

/-- **The first ping of a run**, where no timer message of an earlier one is left. -/
theorem timed_start [NetIpv6Addr] {cfg : NetConfig} {neigh : Ipv6Addr} {data : PingData}
    (hcount : 0 < count)
    (hquiet : s.outstanding = []) (hdata : configure cfg neigh { count } = some data)
    (env : SendEnv) :
    Timed count ({ s with
      pc := .receiving, data, runs := s.runs + 1, sent := [], accepted := [] }.ping env) := by
  have htally := configure_tally hdata
  have hnum : data.numSent = 0 := congrArg Tally.numSent htally
  have hqueue : s.queue.filterMap Msg.timer? = [] := (List.append_eq_nil_iff.mp hquiet).2
  refine timed_ping ?_ ?_ (congrArg Tally.count htally) hqueue rfl
  · rw [hnum]
    rfl
  · exact UInt32.lt_iff_toNat_lt.mp hcount

/-- **Runs that start without left-over timer messages are timed by their own timer.** -/
theorem timed_step [NetIpv6Addr] (hcount : 0 < count) (hquiet : StartsQuiet s e) (h : Timed count s)
    (hstep : measureStep cap count s e = some t) : Timed count t := by
  cases measureStep_cases hstep with
  | unconfigured hpc => exact h.frame rfl rfl rfl rfl rfl (fun _ => rfl) (.refl _)
  | start hpc hdata => exact timed_start hcount hquiet hdata _
  | arrive =>
    refine h.frame rfl rfl rfl rfl rfl (fun _ => rfl) ?_
    rw [Measure.outstanding, Measure.outstanding, timers_enqueue rfl]
  | message =>
    refine h.frame rfl rfl rfl rfl rfl (fun _ => rfl) ?_
    rw [Measure.outstanding, Measure.outstanding, timers_enqueue rfl]
  | fire htimer => exact h.frame rfl rfl rfl rfl rfl (fun _ => rfl) (outstanding_fire htimer)
  | @reply now env pkt queue hpc hqueue =>
    obtain ⟨hnum, hcnt⟩ := handleReply_frame s.data pkt now
    refine Timed.loopTest (h.frame hnum hcnt rfl rfl rfl ?_ ?_) hpc
    · intro hfin
      exact absurd (hpc.symm.trans hfin) (by decide)
    · rw [Measure.outstanding, Measure.outstanding, hqueue]
      exact .refl _
  | @next now env firedIn queue hpc hqueue =>
    have hout : s.outstanding = (s.timer.map fun timer => (timer.1, s.runs)).toList
        ++ (.sendNextPing, firedIn) :: queue.filterMap Msg.timer? := by
      rw [Measure.outstanding, hqueue]
      rfl
    -- the message that is received was the only one
    have hone := (h.timer hpc).one
    obtain ⟨-, hdue⟩ := (h.timer hpc).own (.sendNextPing, firedIn) (by rw [hout]; simp)
    have hrest : queue.filterMap Msg.timer? = [] := by
      rw [hout] at hone
      simp only [List.length_append, List.length_cons] at hone
      exact List.length_eq_zero_iff.mp (by omega)
    exact Timed.loopTest
      (timed_ping (s := { s with queue }) h.sent_eq hdue (h.count_eq hpc) hrest hpc) hpc
  | @last now env firedIn queue hpc hqueue =>
    -- `_PING_FINISH` was armed by the last ping
    obtain ⟨-, hdue⟩ := (h.timer hpc).own (.pingFinish, firedIn) (by
      rw [Measure.outstanding, hqueue]
      simp [Msg.timer?])
    refine ⟨h.sent_eq, h.sent_le, ?_, ?_, fun _ => .inl hdue⟩
    · intro hrec
      cases hrec
    · intro hrec
      cases hrec
  | requeue hpc hqueue =>
    refine Timed.loopTest (h.frame rfl rfl rfl rfl rfl (fun _ => rfl) ?_) hpc
    rw [Measure.outstanding, Measure.outstanding, hqueue, timers_enqueue rfl]
    exact .refl _
  | finish hpc hfinish => exact h.leave rfl rfl (by simp) (by simp)
  | clean hpc hqueue => exact h.leave rfl rfl (by simp) (by simp)
  | cleaned hpc => exact h.leave rfl rfl (by simp) (by simp)

theorem timed_boot (count : UInt32) (queue : List Msg) (neighbours : List NeighborEntryl) :
    Timed count (.boot queue neighbours) := by
  refine ⟨rfl, Nat.zero_le _, ?_, ?_, ?_⟩
  · intro hpc
    cases hpc
  · intro hpc
    cases hpc
  · intro hpc
    cases hpc

end Dca
