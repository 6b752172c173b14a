import Dca.Lib.Rank
import Dca.Latency.Timers

/-!
# A run comes to its end

The receive loop waits without a timeout, and what ends it when no replies come is the message of
the timer. While the queue has room for it, every message that the timer sends is a bounded number
of turns away, and so is the end of the run, whatever else arrives. When the queue is full the
message is lost, nothing arms the timer again, and the loop waits for replies alone.
-/

namespace Dca

open CLib

/-- A timer that fires finds room in the queue. -/
def FiresWithRoom (cap : Nat) (s : Measure) : MeasureEvent → Prop
  | .fire => s.queue.length < cap
  | _ => True

instance (cap : Nat) (s : Measure) : (e : MeasureEvent) → Decidable (FiresWithRoom cap s e)
  | .fire => inferInstanceAs (Decidable (_ < _))
  | .start .. | .arrive _ | .message _ | .receive .. | .finish | .cleanup => .isTrue trivial

/-- How many messages are in front of the one of the timer. -/
def Measure.timerPos (s : Measure) : Nat := s.queue.findIdx fun m => m.timer?.isSome

/-- A turn on the way of the timer: it fires, or the thread takes a message behind which its own
waits. -/
def Measure.timerTurn (s : Measure) : MeasureEvent → Bool
  | .fire => true
  | .receive .. => s.timer.isNone
  | _ => false

/-- How many turns the next message of the timer is away. -/
def Measure.wait (cap : Nat) (s : Measure) : Nat :=
  if s.timer.isSome then cap + 1 else s.timerPos + 1

/-- A bound for the turns on the way of the timer until the loop is left. -/
def Measure.rank (cap : Nat) (count : UInt32) (s : Measure) : Nat :=
  if s.pc = .receiving then (count.toNat - s.sent.length) * (cap + 2) + s.wait cap else 0

/-- In the receive loop the timer is armed, or its message is near. -/
structure Driven (cap : Nat) (count : UInt32) (s : Measure) : Prop where
  timed : Timed count s
  present : s.pc = .receiving → s.outstanding ≠ []
  near : s.pc = .receiving → s.timer = none → s.timerPos < cap

variable {cap : Nat} {count : UInt32} {s t : Measure} {e : MeasureEvent}

/-! ## The place of the timer message -/

theorem timerPos_cons {m : Msg} {queue : List Msg} (hm : m.timer? = none)
    (hqueue : s.queue = m :: queue) : s.timerPos = { s with queue }.timerPos + 1 := by
  rw [Measure.timerPos, hqueue, List.findIdx_cons, hm]
  rfl

/-- What comes later goes behind it. -/
theorem timerPos_enqueue {queue : List Msg} {m : Msg} (h : queue.filterMap Msg.timer? ≠ []) :
    (enqueue cap queue m).findIdx (fun m => m.timer?.isSome)
      = queue.findIdx fun m => m.timer?.isSome := by
  have hfound : queue.findIdx (fun m => m.timer?.isSome) < queue.length := by
    obtain ⟨x, hx⟩ := List.exists_mem_of_ne_nil _ h
    obtain ⟨m, hm, htimer⟩ := List.mem_filterMap.mp hx
    exact List.findIdx_lt_length_of_exists ⟨m, hm, by rw [htimer]; rfl⟩
  unfold enqueue
  split_ifs
  · rw [List.findIdx_append, if_pos hfound]
  · rfl

/-- Where there is none, a new one comes last. -/
theorem timerPos_fired {queue : List Msg} {m : Msg} (hm : m.timer?.isSome)
    (h : queue.filterMap Msg.timer? = []) :
    (queue ++ [m]).findIdx (fun m => m.timer?.isSome) = queue.length := by
  have hnone : queue.findIdx (fun m => m.timer?.isSome) = queue.length := by
    refine List.findIdx_eq_length.mpr fun m hm => ?_
    have := List.filterMap_eq_nil_iff.mp h m hm
    rw [this]
    rfl
  rw [List.findIdx_append, hnone, if_neg (Nat.lt_irrefl _)]
  simp [hm]

theorem outstanding_of_none (h : s.timer = none) :
    s.outstanding = s.queue.filterMap Msg.timer? := by
  rw [Measure.outstanding, h]
  rfl

/-- A timer that is armed is the only one. -/
theorem OwnTimer.armed (h : OwnTimer count s) {timer : TimerMsg × UInt32}
    (htimer : s.timer = some timer) : s.queue.filterMap Msg.timer? = [] := by
  have hone := h.one
  rw [Measure.outstanding, htimer] at hone
  simp only [Option.map_some, Option.toList_some, List.length_append, List.length_singleton] at hone
  exact List.length_eq_zero_iff.mp (by omega)

/-! ## Steps -/

section LoopTest

@[simp] theorem outstanding_loopTest (s : Measure) : s.loopTest.outstanding = s.outstanding := by
  obtain ⟨pc, heq, -⟩ := loopTest_eq s
  rw [heq]
  rfl

@[simp] theorem timer_loopTest (s : Measure) : s.loopTest.timer = s.timer := by
  obtain ⟨pc, heq, -⟩ := loopTest_eq s
  rw [heq]

@[simp] theorem timerPos_loopTest (s : Measure) : s.loopTest.timerPos = s.timerPos := by
  obtain ⟨pc, heq, -⟩ := loopTest_eq s
  rw [heq]
  rfl

theorem rank_of_receiving (hpc : s.pc = .receiving) :
    s.rank cap count = (count.toNat - s.sent.length) * (cap + 2) + s.wait cap := if_pos hpc

/-- Leaving the loop ends the way. -/
theorem rank_loopTest_le (s : Measure) :
    s.loopTest.rank cap count ≤ s.rank cap count := by
  obtain ⟨pc, heq, rfl | ⟨rfl, -⟩⟩ := loopTest_eq s
  · rw [heq]
  · rw [heq, Measure.rank, if_neg (by simp)]
    exact Nat.zero_le _

end LoopTest

/-- A ping arms the timer. -/
theorem driven_ping {env : SendEnv} (h : Timed count (s.ping env)) :
    Driven cap count (s.ping env) where
  timed := h
  present := by simp [Measure.outstanding, Measure.ping]
  near := by simp [Measure.ping]

/-- A message that is not the timer's is taken from the queue, and perhaps put back. -/
structure Taken (s t : Measure) : Prop where
  pc : t.pc = s.pc
  sent : t.sent = s.sent
  timer : t.timer = s.timer
  outstanding : t.outstanding = s.outstanding
  nearer : s.timer = none → t.timerPos + 1 = s.timerPos

theorem Driven.taken {queue : List Msg} {m : Msg} (h : Driven cap count s)
    (hpc : s.pc = .receiving) (hm : m.timer? = none) (hqueue : s.queue = m :: queue)
    (htpc : t.pc = s.pc) (hsent : t.sent = s.sent) (htimer : t.timer = s.timer)
    (hruns : t.runs = s.runs)
    (hsame : t.queue.filterMap Msg.timer? = queue.filterMap Msg.timer?)
    (hpos : queue.filterMap Msg.timer? ≠ [] → t.timerPos = { s with queue }.timerPos) :
    Taken s t where
  pc := htpc
  sent := hsent
  timer := htimer
  outstanding := by
    rw [Measure.outstanding, Measure.outstanding, htimer, hruns, hsame, hqueue,
      List.filterMap_cons_none hm]
  nearer := by
    intro hnone
    have hne := h.present hpc
    rw [outstanding_of_none hnone, hqueue, List.filterMap_cons_none hm] at hne
    rw [timerPos_cons hm hqueue, hpos hne]

/-- Behind a turn of the loop that takes another message. -/
theorem Driven.afterTaken (h : Driven cap count s) (hpc : s.pc = .receiving) (ht : Taken s t)
    (htimed : Timed count t.loopTest) :
    Driven cap count t.loopTest ∧
      t.loopTest.rank cap count + s.timer.isNone.toNat ≤ s.rank cap count := by
  refine ⟨⟨htimed, ?_, ?_⟩, ?_⟩
  · rw [outstanding_loopTest, ht.outstanding]
    exact fun _ => h.present hpc
  · rw [timer_loopTest, timerPos_loopTest, ht.timer]
    intro _ hnone
    have := h.near hpc hnone
    have := ht.nearer hnone
    omega
  · have hle : t.loopTest.rank cap count ≤ t.rank cap count := rank_loopTest_le t
    rw [rank_of_receiving (ht.pc.trans hpc), ht.sent, Measure.wait, ht.timer] at hle
    rw [rank_of_receiving hpc, Measure.wait]
    cases htimer : s.timer with
    | none =>
      have := ht.nearer htimer
      simp only [htimer, Option.isSome_none, Bool.false_eq_true, if_false] at hle
      simp only [Option.isNone_none, Option.isSome_none, Bool.toNat_true, Bool.false_eq_true,
        if_false]
      omega
    | some timer =>
      simp only [htimer, Option.isSome_some, if_true] at hle
      simpa using hle

/-- A message that comes in goes behind that of the timer. -/
theorem Driven.arrived {m : Msg} (h : Driven cap count s) (hm : m.timer? = none)
    (htimed : Timed count { s with queue := enqueue cap s.queue m }) :
    Driven cap count { s with queue := enqueue cap s.queue m } ∧
      (s.pc = .receiving →
        { s with queue := enqueue cap s.queue m }.rank cap count ≤ s.rank cap count) := by
  have hout : { s with queue := enqueue cap s.queue m }.outstanding = s.outstanding := by
    rw [Measure.outstanding, Measure.outstanding, timers_enqueue hm]
  have hpos : s.pc = .receiving → s.timer = none →
      { s with queue := enqueue cap s.queue m }.timerPos = s.timerPos := by
    intro hpc hnone
    exact timerPos_enqueue (outstanding_of_none hnone ▸ h.present hpc)
  refine ⟨⟨htimed, ?_, ?_⟩, ?_⟩
  · rw [hout]
    exact h.present
  · intro hpc hnone
    rw [hpos hpc hnone]
    exact h.near hpc hnone
  · intro hpc
    have hwait : { s with queue := enqueue cap s.queue m }.wait cap = s.wait cap := by
      unfold Measure.wait
      split_ifs with htimer
      · rfl
      · rw [hpos hpc (Option.not_isSome_iff_eq_none.mp htimer)]
    rw [Measure.rank, Measure.rank, hwait]

/-- The timer fires. -/
theorem Driven.fired {type : TimerMsg} {due : UInt32} (h : Driven cap count s)
    (htimer : s.timer = some (type, due)) (hroom : s.queue.length < cap)
    (htimed : Timed count
      { s with timer := none, queue := enqueue cap s.queue (.timer type s.runs) }) :
    Driven cap count { s with timer := none, queue := enqueue cap s.queue (.timer type s.runs) } ∧
      (s.pc = .receiving →
        { s with timer := none, queue := enqueue cap s.queue (.timer type s.runs) }.rank cap count + 1
          ≤ s.rank cap count) := by
  have henqueue : enqueue cap s.queue (.timer type s.runs) = s.queue ++ [Msg.timer type s.runs] :=
    if_pos hroom
  rw [henqueue] at htimed ⊢
  have hpos : s.pc = .receiving →
      { s with timer := none, queue := s.queue ++ [Msg.timer type s.runs] }.timerPos
        = s.queue.length :=
    fun hpc => timerPos_fired rfl ((h.timed.timer hpc).armed htimer)
  refine ⟨⟨htimed, ?_, ?_⟩, ?_⟩
  · simp [Measure.outstanding, Msg.timer?]
  · intro hpc _
    rw [hpos hpc]
    exact hroom
  · intro hpc
    rw [rank_of_receiving (s := s) hpc, Measure.rank, if_pos hpc, Measure.wait, Measure.wait,
      hpos hpc, htimer]
    simp only [Option.isSome_none, Option.isSome_some, Bool.false_eq_true, if_false, if_true]
    omega

/-- The message of the timer comes first. -/
theorem Driven.due {type : TimerMsg} {firedIn : Nat} {queue : List Msg} (h : Driven cap count s)
    (hpc : s.pc = .receiving) (hqueue : s.queue = .timer type firedIn :: queue) :
    s.timer = none ∧ s.timerPos = 0 ∧ type.Due count.toNat s.sent.length := by
  refine ⟨?_, ?_, ?_⟩
  · by_contra hsome
    obtain ⟨timer, htimer⟩ := Option.ne_none_iff_exists'.mp hsome
    have hnil := (h.timed.timer hpc).armed htimer
    rw [hqueue] at hnil
    cases hnil
  · rw [Measure.timerPos, hqueue, List.findIdx_cons]
    rfl
  · refine ((h.timed.timer hpc).own (type, firedIn) ?_).2
    rw [Measure.outstanding, hqueue]
    simp [Msg.timer?]

/-- **A turn on the way of the timer brings the end nearer, and no other takes it away.** -/
theorem driven_step [NetIpv6Addr] (hcount : 0 < count) (hquiet : StartsQuiet s e)
    (hroom : FiresWithRoom cap s e)
    (h : Driven cap count s) (hstep : measureStep cap count s e = some t) :
    Driven cap count t ∧
      (s.pc = .receiving → t.rank cap count + (s.timerTurn e).toNat ≤ s.rank cap count) := by
  have htimed : Timed count t := timed_step hcount hquiet h.timed hstep
  cases measureStep_cases hstep with
  | unconfigured hpc =>
    refine ⟨⟨htimed, ?_, ?_⟩, ?_⟩ <;> simp [hpc]
  | start hpc hdata => exact ⟨driven_ping htimed, by simp [hpc]⟩
  | arrive => exact h.arrived rfl htimed
  | message => exact h.arrived rfl htimed
  | fire htimer => exact h.fired htimer hroom htimed
  | @reply now env pkt queue hpc hqueue =>
    have htaken : Taken s ({ s with queue }.reply pkt now) :=
      h.taken hpc rfl hqueue rfl rfl rfl rfl rfl fun _ => rfl
    obtain ⟨hdriven, hrank⟩ := h.afterTaken hpc htaken htimed
    exact ⟨hdriven, fun _ => hrank⟩
  | @next now env firedIn queue hpc hqueue =>
    obtain ⟨hnone, hpos, hdue⟩ := h.due hpc hqueue
    refine ⟨⟨htimed, ?_, ?_⟩, fun _ => ?_⟩
    · simp [Measure.outstanding, Measure.ping]
    · simp [Measure.ping]
    · have hle : ({ s with queue }.ping env).loopTest.rank cap count
          ≤ ({ s with queue }.ping env).rank cap count := rank_loopTest_le _
      have hping : ({ s with queue }.ping env).rank cap count
          = (count.toNat - (s.sent.length + 1)) * (cap + 2) + (cap + 1) := rank_of_receiving hpc
      obtain ⟨left, hleft⟩ : ∃ left, count.toNat = s.sent.length + 1 + left :=
        Nat.exists_eq_add_of_le hdue
      have hmul : (count.toNat - s.sent.length) * (cap + 2) = left * (cap + 2) + (cap + 2) := by
        rw [hleft, Nat.add_assoc, Nat.add_sub_cancel_left, Nat.add_comm 1, Nat.succ_mul]
      have hwait : s.wait cap = 1 := by simp [Measure.wait, hnone, hpos]
      have hturn : (s.timerTurn (.receive now env)).toNat = 1 := by simp [Measure.timerTurn, hnone]
      rw [hping, hleft, Nat.add_sub_cancel_left] at hle
      rw [rank_of_receiving hpc, hmul, hwait, hturn]
      omega
  | last hpc hqueue =>
    obtain ⟨hnone, hpos, -⟩ := h.due hpc hqueue
    refine ⟨⟨htimed, by simp, by simp⟩, fun _ => ?_⟩
    have hwait : s.wait cap = 1 := by simp [Measure.wait, hnone, hpos]
    rw [rank_of_receiving hpc, hwait]
    simp [Measure.rank, Measure.timerTurn, hnone]
  | @requeue now env type queue hpc hqueue =>
    have htaken : Taken s { s with queue := enqueue cap queue (.other type) } :=
      h.taken hpc rfl hqueue rfl rfl rfl rfl (timers_enqueue rfl) timerPos_enqueue
    obtain ⟨hdriven, hrank⟩ := h.afterTaken hpc htaken htimed
    exact ⟨hdriven, fun _ => hrank⟩
  | finish hpc hfinish => refine ⟨⟨htimed, ?_, ?_⟩, ?_⟩ <;> simp [hpc]
  | clean hpc hqueue => refine ⟨⟨htimed, ?_, ?_⟩, ?_⟩ <;> simp [hpc]
  | cleaned hpc => refine ⟨⟨htimed, ?_, ?_⟩, ?_⟩ <;> simp [hpc]

/-! ## The end of a run -/

/-- A step in the receive loop, at which a timer that fires finds room. -/
def InLoop (cap : Nat) (s : Measure) (e : MeasureEvent) : Prop :=
  s.pc = .receiving ∧ FiresWithRoom cap s e

instance (cap : Nat) (s : Measure) (e : MeasureEvent) : Decidable (InLoop cap s e) :=
  inferInstanceAs (Decidable (_ ∧ _))

/-- No run starts in the receive loop. -/
theorem startsQuiet_of_receiving [NetIpv6Addr] (hpc : s.pc = .receiving)
    (hstep : measureStep cap count s e = some t) : StartsQuiet s e := by
  cases measureStep_cases hstep with
  | unconfigured hidle => exact absurd (hpc.symm.trans hidle) (by decide)
  | start hidle _ => exact absurd (hpc.symm.trans hidle) (by decide)
  | arrive | message | fire _ | reply _ _ | next _ _ | last _ _ | requeue _ _ | finish _ _
  | clean _ _ | cleaned _ => trivial

theorem ranked_inLoop [NetIpv6Addr] (hcount : 0 < count) :
    Ranked (measureStep cap count) Measure.timerTurn (InLoop cap) (Driven cap count)
      (Measure.rank cap count) where
  keep := by
    rintro s e t ⟨hpc, hroom⟩ h hstep
    exact (driven_step hcount (startsQuiet_of_receiving hpc hstep) hroom h hstep).1
  down := by
    rintro s e t ⟨hpc, hroom⟩ h hstep
    exact (driven_step hcount (startsQuiet_of_receiving hpc hstep) hroom h hstep).2 hpc

/-- The state behind the start of a run that gets to the loop. -/
theorem driven_start [NetIpv6Addr] (hcount : 0 < count) {cfg : NetConfig} {neigh : Ipv6Addr}
    {env : SendEnv} (hquiet : s.outstanding = [])
    (hstart : measureStep cap count s (.start cfg neigh env) = some t) (hpc : t.pc = .receiving) :
    Driven cap count t := by
  cases measureStep_cases hstart with
  | unconfigured hidle => exact absurd (hpc.symm.trans hidle) (by decide)
  | start _ hdata => exact driven_ping (timed_start hcount hquiet hdata env)

/-- A run that is in the loop behind some steps in the loop was there before them. -/
theorem receiving_of_meets [NetIpv6Addr] {C : Measure → MeasureEvent → Prop}
    {events : List MeasureEvent}
    (hc : ∀ s e, C s e → s.pc = .receiving) (hmeets : Meets (measureStep cap count) C s events)
    (hrun : run (measureStep cap count) s events = some t) (hpc : t.pc = .receiving) :
    s.pc = .receiving := by
  cases events with
  | nil =>
    obtain rfl := Option.some.inj hrun
    exact hpc
  | cons e events => exact hc s e hmeets.1

theorem Driven.wait_le (h : Driven cap count s) (hpc : s.pc = .receiving) : s.wait cap ≤ cap + 1 := by
  unfold Measure.wait
  split_ifs with htimer
  · exact Nat.le_refl _
  · have := h.near hpc (Option.not_isSome_iff_eq_none.mp htimer)
    omega

/-- The message of the timer is among the first ones, if it has fired. -/
theorem Driven.armed_or_queued (h : Driven cap count s) (hpc : s.pc = .receiving) :
    s.timer.isSome ∨ ∃ m ∈ s.queue.take cap, m.timer?.isSome := by
  cases htimer : s.timer with
  | some timer => exact Or.inl rfl
  | none =>
    refine Or.inr ?_
    have hpresent := h.present hpc
    rw [outstanding_of_none htimer] at hpresent
    obtain ⟨x, hx⟩ := List.exists_mem_of_ne_nil _ hpresent
    obtain ⟨m, hm, hmtimer⟩ := List.mem_filterMap.mp hx
    have hlt : s.timerPos < s.queue.length :=
      List.findIdx_lt_length_of_exists ⟨m, hm, by rw [hmtimer]; rfl⟩
    refine ⟨s.queue[s.timerPos], ?_, List.findIdx_getElem (w := hlt)⟩
    rw [List.mem_take_iff_getElem]
    exact ⟨s.timerPos, lt_min (h.near hpc htimer) hlt, rfl⟩

/--
**A run comes to its end even if nobody answers.** If it starts with no timer message left over and
the timer finds room in the queue, the loop never waits without an armed timer or its message among
the first `cap` ones; and however the network, the other threads and this one take turns, it makes
no more than `cap + 2` turns on the way of the timer for every ping that is left, and one more
round, before the loop is left.
-/
theorem run_comes_to_end [NetIpv6Addr] (cap : Nat) (count : UInt32) (hcount : 0 < count)
    {s₀ s₁ s : Measure}
    {cfg : NetConfig} {neigh : Ipv6Addr} {env : SendEnv} (hquiet : s₀.outstanding = [])
    (hstart : measureStep cap count s₀ (.start cfg neigh env) = some s₁)
    (during : List MeasureEvent) (hprompt : Meets (measureStep cap count) (InLoop cap) s₁ during)
    (hrun : run (measureStep cap count) s₁ during = some s) (hpc : s.pc = .receiving) :
    (s.timer.isSome ∨ ∃ m ∈ s.queue.take cap, m.timer?.isSome) ∧
      ∀ later t, Meets (measureStep cap count) (InLoop cap) s later →
        run (measureStep cap count) s later = some t →
        turns (measureStep cap count) Measure.timerTurn s later
          ≤ (count.toNat - s.sent.length + 1) * (cap + 2) := by
  have hbegun : Driven cap count s₁ :=
    driven_start hcount hquiet hstart (receiving_of_meets (fun _ _ hc => hc.1) hprompt hrun hpc)
  have hdriven : Driven cap count s := run_invariant (ranked_inLoop hcount).keep hprompt hbegun hrun
  refine ⟨hdriven.armed_or_queued hpc, fun later t hlater hlaterRun => ?_⟩
  have hturns := (ranked_inLoop hcount).turns_le hlater hdriven hlaterRun
  have hwait := hdriven.wait_le hpc
  rw [rank_of_receiving hpc] at hturns
  rw [Nat.succ_mul]
  omega

attribute [local instance] gnrcIpv6Addr

/-- The run for `fe80::1` begins, in a queue with another message. -/
def begunPing (cap : Nat) : Option Measure :=
  measureStep cap defaultCount (.boot [.other 7] []) (.start smallConfig (linkLocal 1) smallSend)

/-- Nobody answers, and the timer fires while another message is put back again and again. -/
def silentRun : List MeasureEvent :=
  [.fire, .receive 0 smallSend, .receive 0 smallSend, .message 8, .fire, .receive 0 smallSend]

theorem run_comes_to_end_silent :
    ∃ s₁ s, begunPing 8 = some s₁ ∧ run (measureStep 8 defaultCount) s₁ silentRun = some s ∧
      (s.timer.isSome ∨ ∃ m ∈ s.queue.take 8, m.timer?.isSome) ∧
        ∀ later t, Meets (measureStep 8 defaultCount) (InLoop 8) s later →
          run (measureStep 8 defaultCount) s later = some t →
          turns (measureStep 8 defaultCount) Measure.timerTurn s later
            ≤ (defaultCount.toNat - s.sent.length + 1) * (8 + 2) := by
  obtain ⟨s₁, s, hstart, hrun, hpc, hloop⟩ : ∃ s₁ s, begunPing 8 = some s₁ ∧
      run (measureStep 8 defaultCount) s₁ silentRun = some s ∧ s.pc = .receiving ∧
      Meets (measureStep 8 defaultCount) (InLoop 8) s₁ silentRun :=
    ⟨_, _, rfl, rfl, rfl, by decide⟩
  exact ⟨s₁, s, hstart, hrun,
    run_comes_to_end 8 defaultCount (by decide) rfl hstart silentRun hloop hrun hpc⟩

/-! ## The lost message -/

/-- The state `t` behind a lost message of the timer: nothing has been sent or stored since `s`, no
timer message is to come, and if the loop has been left, the replies are complete. -/
structure Hung (count : UInt32) (s t : Measure) : Prop where
  requests : t.requests = s.requests
  neighbours : t.neighbours = s.neighbours
  count_eq : t.data.count = count
  outstanding : t.outstanding = []
  place : t.pc = .receiving ∨ count ≤ t.data.numRecv

theorem timer_of_outstanding (h : s.outstanding = []) : s.timer = none := by
  cases htimer : s.timer with
  | none => rfl
  | some timer =>
    rw [Measure.outstanding, htimer] at h
    cases h

theorem Hung.loopTest (h : Hung count s t) (hpc : t.pc = .receiving) : Hung count s t.loopTest := by
  have hout : t.loopTest.outstanding = [] := (outstanding_loopTest t).trans h.outstanding
  obtain ⟨pc, heq, rfl | ⟨rfl, hstop⟩⟩ := loopTest_eq t
  · rw [heq] at hout ⊢
    exact ⟨h.requests, h.neighbours, h.count_eq, hout, Or.inl hpc⟩
  · rw [heq] at hout ⊢
    exact ⟨h.requests, h.neighbours, h.count_eq, hout, Or.inr (h.count_eq ▸ hstop)⟩

/-- **While replies are missing, no step leads out of the loop.** -/
theorem hung_step [NetIpv6Addr] {u : Measure} (h : Hung count s t)
    (hmissing : t.data.numRecv < count)
    (hstep : measureStep cap count t e = some u) : Hung count s u := by
  have hpc : t.pc = .receiving := h.place.resolve_right (UInt32.not_le.mpr hmissing)
  have htimer : t.timer = none := timer_of_outstanding h.outstanding
  have hqueue : t.queue.filterMap Msg.timer? = [] := (List.append_eq_nil_iff.mp h.outstanding).2
  cases measureStep_cases hstep with
  | unconfigured hidle => exact absurd (hpc.symm.trans hidle) (by decide)
  | start hidle _ => exact absurd (hpc.symm.trans hidle) (by decide)
  | arrive | message =>
    refine ⟨h.requests, h.neighbours, h.count_eq, ?_, Or.inl hpc⟩
    rw [Measure.outstanding, timers_enqueue rfl]
    exact h.outstanding
  | fire harmed =>
    rw [htimer] at harmed
    cases harmed
  | @reply now env pkt queue _ hq =>
    have hrest : queue.filterMap Msg.timer? = [] := by
      rwa [hq, List.filterMap_cons_none rfl] at hqueue
    have hout' : ({ t with queue }.reply pkt now).outstanding = [] :=
      (outstanding_of_none (s := { t with queue }.reply pkt now) htimer).trans hrest
    have hcount := (handleReply_frame t.data pkt now).2.trans h.count_eq
    exact Hung.loopTest ⟨h.requests, h.neighbours, hcount, hout', Or.inl hpc⟩ hpc
  | next _ hq =>
    rw [hq] at hqueue
    cases hqueue
  | last _ hq =>
    rw [hq] at hqueue
    cases hqueue
  | @requeue now env type queue _ hq =>
    have hrest : (enqueue cap queue (.other type)).filterMap Msg.timer? = [] := by
      rwa [timers_enqueue rfl, ← List.filterMap_cons_none (a := Msg.other type) rfl, ← hq]
    have hout' : { t with queue := enqueue cap queue (.other type) }.outstanding = [] :=
      (outstanding_of_none (s := { t with queue := enqueue cap queue (.other type) }) htimer).trans
        hrest
    exact Hung.loopTest ⟨h.requests, h.neighbours, h.count_eq, hout', Or.inl hpc⟩ hpc
  | finish hfin _ => exact absurd (hpc.symm.trans hfin) (by decide)
  | clean hcl _ => exact absurd (hpc.symm.trans hcl) (by simp)
  | cleaned hcl => exact absurd (hpc.symm.trans hcl) (by simp)

/--
**A timer that fires into a full queue hangs the measurement**, if its run has started with no timer
message left over. The message is lost, and from then on the timer stays unarmed, and the function
sends no ping, stores no result and does not come back until the replies are complete, whatever
arrives.
-/
theorem full_queue_hangs [NetIpv6Addr] (cap : Nat) (count : UInt32) (hcount : 0 < count)
    {s₀ s₁ s : Measure}
    {cfg : NetConfig} {neigh : Ipv6Addr} {env : SendEnv} (hquiet : s₀.outstanding = [])
    (hstart : measureStep cap count s₀ (.start cfg neigh env) = some s₁)
    (during : List MeasureEvent)
    (hloop : Meets (measureStep cap count) (fun s _ => s.pc = .receiving) s₁ during)
    (hrun : run (measureStep cap count) s₁ during = some s) (hpc : s.pc = .receiving)
    (htimer : s.timer.isSome) (hfull : cap ≤ s.queue.length) :
    ∃ u, measureStep cap count s .fire = some u ∧
      ∀ later t, Meets (measureStep cap count) (fun s _ => s.data.numRecv < count) u later →
        run (measureStep cap count) u later = some t →
        t.timer = none ∧ t.requests = s.requests ∧ t.neighbours = s.neighbours ∧
          (t.pc = .receiving ∨ count ≤ t.data.numRecv) := by
  have hbegun : Timed count s₁ :=
    (driven_start hcount hquiet hstart (receiving_of_meets (fun _ _ hc => hc) hloop hrun hpc)).timed
  have htimed : Timed count s := by
    refine run_invariant (fun s e t hc h hstep => ?_) hloop hbegun hrun
    exact timed_step hcount (startsQuiet_of_receiving hc hstep) h hstep
  obtain ⟨⟨type, due⟩, harmed⟩ := Option.isSome_iff_exists.mp htimer
  refine ⟨{ s with timer := none }, ?_, fun later t hlater hlaterRun => ?_⟩
  · have hlost : enqueue cap s.queue (.timer type s.runs) = s.queue := if_neg (by omega)
    simp only [measureStep, harmed, hlost]
  · have hlost : Hung count s { s with timer := none } := {
      requests := rfl
      neighbours := rfl
      count_eq := htimed.count_eq hpc
      outstanding := (htimed.timer hpc).armed harmed
      place := Or.inl hpc }
    have hhung : Hung count s t :=
      run_invariant (fun _ _ _ hc h hstep => hung_step h hc hstep) hlater hlost hlaterRun
    exact ⟨timer_of_outstanding hhung.outstanding, hhung.requests, hhung.neighbours, hhung.place⟩

/-- The queue has room for one message, and another thread has sent it. -/
theorem full_queue_hangs_small :
    ∃ s u, begunPing 1 = some s ∧ measureStep 1 defaultCount s .fire = some u ∧
      ∀ later t, Meets (measureStep 1 defaultCount) (fun s _ => s.data.numRecv < defaultCount) u later →
        run (measureStep 1 defaultCount) u later = some t →
        t.timer = none ∧ t.requests = s.requests ∧ t.neighbours = s.neighbours ∧
          (t.pc = .receiving ∨ defaultCount ≤ t.data.numRecv) := by
  obtain ⟨s, hstart, hpc, htimer, hfull⟩ : ∃ s, begunPing 1 = some s ∧ s.pc = .receiving ∧
      s.timer.isSome ∧ 1 ≤ s.queue.length := ⟨_, rfl, rfl, rfl, by decide⟩
  obtain ⟨u, hu, hhangs⟩ :=
    full_queue_hangs 1 defaultCount (by decide) rfl hstart [] trivial rfl hpc htimer hfull
  exact ⟨s, u, hstart, hu, hhangs⟩

end Dca
