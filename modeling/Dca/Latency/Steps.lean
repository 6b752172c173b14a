import Dca.Latency.Measure

/-!
# What a step of the measuring thread can do

The steps with everything that made them possible, and what they leave as it is.
-/

namespace Dca

open CLib

/-- The steps of `measureStep`, one constructor for each way through it. -/
inductive MeasureStep [NetIpv6Addr] (cap : Nat) (count : UInt32) (s : Measure) :
    MeasureEvent → Measure → Prop where
  | unconfigured {cfg neigh env} (hpc : s.pc = .idle) :
      MeasureStep cap count s (.start cfg neigh env) { s with res := 1 }
  | start {cfg neigh env data} (hpc : s.pc = .idle)
      (hdata : configure cfg neigh { count } = some data) :
      MeasureStep cap count s (.start cfg neigh env)
        ({ s with
          pc := .receiving, data, runs := s.runs + 1, sent := [], accepted := [] }.ping env)
  | arrive {pkt} :
      MeasureStep cap count s (.arrive pkt) { s with queue := enqueue cap s.queue (.rcv pkt) }
  | message {type} :
      MeasureStep cap count s (.message type) { s with queue := enqueue cap s.queue (.other type) }
  | fire {type due} (htimer : s.timer = some (type, due)) :
      MeasureStep cap count s .fire
        { s with timer := none, queue := enqueue cap s.queue (.timer type s.runs) }
  | reply {now env pkt queue} (hpc : s.pc = .receiving) (hqueue : s.queue = .rcv pkt :: queue) :
      MeasureStep cap count s (.receive now env) ({ s with queue }.reply pkt now).loopTest
  | next {now env firedIn queue} (hpc : s.pc = .receiving)
      (hqueue : s.queue = .timer .sendNextPing firedIn :: queue) :
      MeasureStep cap count s (.receive now env) ({ s with queue }.ping env).loopTest
  | last {now env firedIn queue} (hpc : s.pc = .receiving)
      (hqueue : s.queue = .timer .pingFinish firedIn :: queue) :
      MeasureStep cap count s (.receive now env) { s with queue, pc := .finishing }
  | requeue {now env type queue} (hpc : s.pc = .receiving)
      (hqueue : s.queue = .other type :: queue) :
      MeasureStep cap count s (.receive now env)
        { s with queue := enqueue cap queue (.other type) }.loopTest
  | finish {neighbours res} (hpc : s.pc = .finishing)
      (hfinish : Dca.finish s.data s.neighbours = .ok (neighbours, res)) :
      MeasureStep cap count s .finish { s with pc := .cleaning 0, timer := none, neighbours, res }
  | clean {i m queue} (hpc : s.pc = .cleaning i) (hqueue : s.queue = m :: queue) :
      MeasureStep cap count s .cleanup
        { s with
          pc := .cleaning (i + 1)
          queue := if m.isIcmpv6 then queue else enqueue cap queue m }
  | cleaned {i} (hpc : s.pc = .cleaning i) :
      MeasureStep cap count s .cleanup { s with pc := .idle }

variable {cap : Nat} {count : UInt32} {s t : Measure} {e : MeasureEvent}

theorem measureStep_cases [NetIpv6Addr] (h : measureStep cap count s e = some t) :
    MeasureStep cap count s e t := by
  cases e with
  | start cfg neigh env =>
    dsimp only [measureStep] at h
    split_ifs at h with hpc
    split at h
    · obtain rfl := Option.some.inj h
      exact .unconfigured hpc
    · next data hdata =>
      obtain rfl := Option.some.inj h
      exact .start hpc hdata
  | arrive pkt =>
    obtain rfl := Option.some.inj h
    exact .arrive
  | message type =>
    obtain rfl := Option.some.inj h
    exact .message
  | fire =>
    dsimp only [measureStep] at h
    split at h
    · cases h
    · next type due htimer =>
      obtain rfl := Option.some.inj h
      exact .fire htimer
  | receive now env =>
    dsimp only [measureStep] at h
    split_ifs at h with hpc
    split at h
    · cases h
    · next m queue hqueue =>
      obtain rfl := Option.some.inj h
      cases m with
      | rcv pkt => exact .reply hpc hqueue
      | timer type firedIn =>
        cases type with
        | sendNextPing => exact .next hpc hqueue
        | pingFinish =>
          -- the test of the loop is not reached
          have hstop : ({ s with queue }.dispatch cap (.timer .pingFinish firedIn) now env).loopTest
              = { s with queue, pc := .finishing } := by
            unfold Measure.dispatch Measure.loopTest
            split_ifs
            · rfl
            · rfl
          rw [hstop]
          exact .last hpc hqueue
      | other type => exact .requeue hpc hqueue
  | finish =>
    dsimp only [measureStep] at h
    split_ifs at h with hpc
    split at h
    · cases h
    · next neighbours res hfinish =>
      obtain rfl := Option.some.inj h
      exact .finish hpc hfinish
  | cleanup =>
    dsimp only [measureStep] at h
    split at h
    · next i hpc =>
      split at h
      · next m queue hqueue =>
        by_cases hi : i < s.queue.length
        · rw [if_pos hi] at h
          obtain rfl := Option.some.inj h
          exact .clean hpc hqueue
        · rw [if_neg hi] at h
          obtain rfl := Option.some.inj h
          exact .cleaned hpc
      · obtain rfl := Option.some.inj h
        exact .cleaned hpc
    · cases h

/-! ## Vocabulary -/

/-- The reply that the next turn of the receive loop accepts. -/
def Measure.nextReply [NetIpv6Addr] (s : Measure) : Option Icmpv6Snip :=
  match s.queue with
  | .rcv pkt :: _ => s.data.acceptedReply pkt
  | _ => none

/-- Whether the next turn of the receive loop sends a ping. -/
def Measure.nextPing (s : Measure) : Bool :=
  match s.queue with
  | .timer .sendNextPing _ :: _ => true
  | _ => false

theorem nextReply_eq [NetIpv6Addr] {pkt : Packet} {queue : List Msg}
    (h : s.queue = .rcv pkt :: queue) : s.nextReply = s.data.acceptedReply pkt := by
  rw [Measure.nextReply, h]

theorem nextPing_eq {firedIn : Nat} {queue : List Msg}
    (h : s.queue = .timer .sendNextPing firedIn :: queue) : s.nextPing = true := by
  rw [Measure.nextPing, h]

theorem toNat_add_one {n : UInt32} (h : n.toNat + 1 < 2 ^ 32) : (n + 1).toNat = n.toNat + 1 := by
  rw [UInt32.toNat_add]
  exact Nat.mod_eq_of_lt h

/-- A new run begins with a clean slate. -/
theorem configure_tally [NetIpv6Addr] {cfg : NetConfig} {neigh : Ipv6Addr} {data : PingData}
    (h : configure cfg neigh { count } = some data) :
    data.tally = ({ count } : PingData).tally := by
  dsimp only [configure] at h
  split at h
  · cases h
  · obtain rfl := Option.some.inj h
    rfl

/-- The test at the end of the loop changes at most the place of the thread. -/
theorem loopTest_eq (s : Measure) : ∃ pc, s.loopTest = { s with pc } ∧
    (pc = s.pc ∨ pc = .finishing ∧ s.data.count ≤ s.data.numRecv) := by
  unfold Measure.loopTest
  split_ifs with h
  · exact ⟨s.pc, rfl, .inl rfl⟩
  · exact ⟨.finishing, rfl, .inr ⟨rfl, UInt32.not_lt.mp h⟩⟩

@[simp] theorem data_loopTest (s : Measure) : s.loopTest.data = s.data := by
  obtain ⟨pc, heq, -⟩ := loopTest_eq s
  rw [heq]

end Dca
