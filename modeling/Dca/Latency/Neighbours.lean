import Dca.Latency.Timers

/-!
# Runs of different neighbours

All runs share one message queue. The cleanup loop puts every timer message back, so that one that
is still queued when its run ends is received in the next run. Without such messages each run ends
by its own timer or by its own replies.
-/

namespace Dca

open CLib

/-- A run has not sent too many pings, does not stop before it has sent all of them or counted as
many replies that are no duplicates, and finds only its own timer messages. -/
structure Undisturbed (count : UInt32) (s : Measure) : Prop where
  sent_le : s.sent.length ≤ count.toNat
  stop : s.pc = .finishing → s.sent.length = count.toNat ∨ count ≤ s.data.numRecv
  own : s.pc = .receiving → ∀ type firedIn, .timer type firedIn ∈ s.queue → firedIn = s.runs

/-- No run influences a later one, whatever the order of steps. -/
def RunsUndisturbed [NetIpv6Addr] (cap : Nat) (count : UInt32) : Prop :=
  ∀ neighbours events s,
    run (measureStep cap count) (.boot [] neighbours) events = some s → Undisturbed count s

/-- A step that ends a run does so when no timer message is in the queue. -/
def LeavesNoTimer (s : Measure) : MeasureEvent → Prop
  | .finish => ∀ m ∈ s.queue, m.timer? = none
  | _ => True

instance (s : Measure) : (e : MeasureEvent) → Decidable (LeavesNoTimer s e)
  | .finish => inferInstanceAs (Decidable (∀ m ∈ s.queue, m.timer? = none))
  | .start .. | .arrive _ | .message _ | .fire | .receive .. | .cleanup => .isTrue trivial

/-- Between two runs. -/
def Measure.Between (s : Measure) : Prop := s.pc ≠ .receiving ∧ s.pc ≠ .finishing

/-- The invariant of runs that leave no timer message. -/
structure Quiet (count : UInt32) (s : Measure) : Prop where
  timed : Timed count s
  between : s.Between → s.outstanding = []

variable {cap : Nat} {count : UInt32} {s t : Measure} {e : MeasureEvent}

theorem between_idle (hpc : s.pc = .idle) : s.Between := by
  unfold Measure.Between
  rw [hpc]
  exact ⟨by simp, by simp⟩

theorem between_cleaning {i : Nat} (hpc : s.pc = .cleaning i) : s.Between := by
  unfold Measure.Between
  rw [hpc]
  exact ⟨by simp, by simp⟩

theorem not_between_loopTest (hpc : s.pc = .receiving) : ¬ s.loopTest.Between := by
  rintro ⟨hrec, hfin⟩
  obtain ⟨pc, heq, hpc' | ⟨rfl, -⟩⟩ := loopTest_eq s
  · rw [heq] at hrec
    exact hrec (hpc'.trans hpc)
  · rw [heq] at hfin
    exact hfin rfl

theorem Quiet.startsQuiet [NetIpv6Addr] (h : Quiet count s)
    (hstep : measureStep cap count s e = some t) : StartsQuiet s e := by
  cases measureStep_cases hstep with
  | unconfigured hpc => exact h.between (between_idle hpc)
  | start hpc hdata => exact h.between (between_idle hpc)
  | arrive | message | fire | reply | next | last | requeue | finish | clean | cleaned => trivial

/-- **When no run leaves a timer message, none is left between the runs.** -/
theorem quiet_step [NetIpv6Addr] (hcount : 0 < count) (hc : LeavesNoTimer s e) (h : Quiet count s)
    (hstep : measureStep cap count s e = some t) : Quiet count t := by
  refine ⟨timed_step hcount (h.startsQuiet hstep) h.timed hstep, ?_⟩
  cases measureStep_cases hstep with
  | unconfigured hpc => exact fun _ => h.between (between_idle hpc)
  | start hpc hdata => exact fun hbetween => absurd rfl hbetween.1
  | arrive =>
    intro hbetween
    rw [Measure.outstanding, timers_enqueue rfl]
    exact h.between hbetween
  | message =>
    intro hbetween
    rw [Measure.outstanding, timers_enqueue rfl]
    exact h.between hbetween
  | fire htimer =>
    -- no timer is armed between two runs
    intro hbetween
    have hout := h.between hbetween
    rw [Measure.outstanding, htimer] at hout
    cases hout
  | reply hpc hqueue => exact fun hbetween => absurd hbetween (not_between_loopTest hpc)
  | next hpc hqueue => exact fun hbetween => absurd hbetween (not_between_loopTest hpc)
  | last hpc hqueue => exact fun hbetween => absurd rfl hbetween.2
  | requeue hpc hqueue => exact fun hbetween => absurd hbetween (not_between_loopTest hpc)
  | finish hpc hfinish => exact fun _ => List.filterMap_eq_nil_iff.mpr hc
  | @clean i m queue hpc hqueue =>
    -- what the cleanup loop puts back was there before
    intro _
    have hout := h.between (between_cleaning hpc)
    rw [Measure.outstanding, hqueue] at hout
    obtain ⟨htimer, hold⟩ := List.append_eq_nil_iff.mp hout
    have hnew : (if m.isIcmpv6 then queue else enqueue cap queue m).filterMap Msg.timer? = [] := by
      split_ifs
      · have hsub := (List.sublist_cons_self m queue).filterMap Msg.timer?
        rw [hold] at hsub
        exact List.sublist_nil.mp hsub
      · have hsub : ((enqueue cap queue m).filterMap Msg.timer?).Subperm _ := timers_requeue queue m
        rw [hold] at hsub
        exact List.subperm_nil.mp hsub
    rw [Measure.outstanding, htimer, hnew]
    rfl
  | cleaned hpc => exact fun _ => h.between (between_cleaning hpc)

theorem Quiet.undisturbed (h : Quiet count s) : Undisturbed count s := by
  refine ⟨h.timed.sent_le, h.timed.stop, ?_⟩
  intro hpc type firedIn hmem
  refine ((h.timed.timer hpc).own (type, firedIn) (List.mem_append_right _ ?_)).1
  exact List.mem_filterMap.mpr ⟨_, hmem, rfl⟩

/-- **Runs that leave no timer message do not influence each other.** -/
theorem undisturbed_of_leavesNoTimer [NetIpv6Addr] (cap : Nat) (count : UInt32) (hcount : 0 < count)
    (neighbours : List NeighborEntryl) (events : List MeasureEvent) (s : Measure)
    (hleaves : Meets (measureStep cap count) LeavesNoTimer (.boot [] neighbours) events)
    (hrun : run (measureStep cap count) (.boot [] neighbours) events = some s) :
    Undisturbed count s := by
  have hboot : Quiet count (.boot [] neighbours) := ⟨timed_boot count [] neighbours, fun _ => rfl⟩
  have hquiet : Quiet count s :=
    run_invariant (fun _ _ _ hc h => quiet_step hcount hc h) hleaves hboot hrun
  exact hquiet.undisturbed

attribute [local instance] gnrcIpv6Addr

/-- The second neighbour's run after one whose timer message was received in time. -/
def timelyRuns : List MeasureEvent :=
  .start smallConfig (linkLocal 1) smallSend :: smallTick ++ smallTick ++ smallEcho 1 0
    ++ smallEcho 1 1 ++ smallEcho 1 2 ++ [.finish, .cleanup]
    ++ .start smallConfig (linkLocal 2) smallSend :: smallTick ++ smallTick ++ smallTick

theorem undisturbed_timelyRuns :
    ∃ s, run (measureStep 8 defaultCount) (.boot [] []) timelyRuns = some s ∧
      (s.pc = .finishing ∧ s.runs = 2) ∧ Undisturbed defaultCount s := by
  have hrun : ∃ s, run (measureStep 8 defaultCount) (.boot [] []) timelyRuns = some s ∧
      (s.pc = .finishing ∧ s.runs = 2) := exists_run_of_any (by decide)
  obtain ⟨s, hrun, hend⟩ := hrun
  exact ⟨s, hrun, hend, undisturbed_of_leavesNoTimer 8 defaultCount (by decide) [] timelyRuns s
    (by decide) hrun⟩

/-- The timer of the first run fires while its last reply waits in the queue. -/
def lateTimerRuns : List MeasureEvent :=
  .start smallConfig (linkLocal 1) smallSend :: smallTick ++ smallTick ++ smallEcho 1 0
    ++ smallEcho 1 1 ++ [.arrive (smallReply 1 2), .fire, .receive 2000 smallSend]
    ++ [.finish, .cleanup, .cleanup]
    ++ [.start smallConfig (linkLocal 2) smallSend, .receive 0 smallSend]

/-- The second run stops after one of three pings. -/
theorem not_runsUndisturbed : ¬ RunsUndisturbed 8 defaultCount := by
  intro h
  have hrun : ∃ s, run (measureStep 8 defaultCount) (.boot [] []) lateTimerRuns = some s ∧
      s.pc = .finishing ∧ s.sent.length = 1 ∧ s.data.numRecv = 0 := exists_run_of_any (by decide)
  obtain ⟨s, hrun, hpc, hsent, hrecv⟩ := hrun
  rcases (h [] lateTimerRuns s hrun).stop hpc with hstop | hstop
  · rw [hsent] at hstop
    exact absurd hstop (by decide)
  · rw [hrecv] at hstop
    exact absurd hstop (by decide)

end Dca
