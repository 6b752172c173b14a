import Dca.Latency.Steps
import Mathlib.Data.Fintype.Card

/-!
# Packet loss as a percentage

Receiving is counted through a table of 512 bits that the sequence number of the reply selects.
As long as every accepted reply falls on the bit of a ping that has been sent, what is counted as
received and the bits of sent pings that are still clear are together no more than what was sent.
A reply on any other bit is counted all the same, and the subtraction in `_finish` wraps around.
-/

namespace Dca

open CLib

/-- The bits of pings that have been sent and are clear. -/
def Tally.waiting (y : Tally) : Finset (Fin cktabSize) :=
  Finset.univ.filter fun i => i.val < y.numSent.toNat ∧ y.cktab i = false

/-- What keeps the loss a percentage. -/
def Tally.Covered (y : Tally) : Prop := y.numRecv.toNat + y.waiting.card ≤ y.numSent.toNat

/-- `num_recv` is at most `num_sent`, and so is the percentage that `_finish` stores at most 100. -/
structure PercentLoss (data : PingData) : Prop where
  recv_le : data.numRecv ≤ data.numSent
  loss_le : ∀ node, finishRecord data = .ok node → node.packetLoss ≤ 100

/-- Packet loss is a percentage in every state of every run. -/
def LossAlwaysPercent [NetIpv6Addr] (cap : Nat) (count : UInt32) : Prop :=
  ∀ queue neighbours events s,
    run (measureStep cap count) (.boot queue neighbours) events = some s → PercentLoss s.data

/-- A step for which the receive counting is made: an accepted reply falls on the bit of a ping that
has been sent in this run, and the number of pings does not wrap around. -/
def AnswersSentPing [NetIpv6Addr] (s : Measure) : MeasureEvent → Prop
  | .receive _ _ =>
    (∀ icmpv6 ∈ s.nextReply, (cktabSlot icmpv6.seq.toNat).val < s.data.numSent.toNat) ∧
      (s.nextPing → s.data.numSent.toNat + 1 < 2 ^ 32)
  | _ => True

instance [NetIpv6Addr] (s : Measure) : (e : MeasureEvent) → Decidable (AnswersSentPing s e)
  | .receive _ _ => inferInstanceAs (Decidable (_ ∧ _))
  | .start .. | .arrive _ | .message _ | .fire | .finish | .cleanup => .isTrue trivial

/-! ## Counting -/

theorem covered_start (count : UInt32) : ({ count } : PingData).tally.Covered := by
  have hwaiting : ({ count } : PingData).tally.waiting = ∅ := by
    refine Finset.filter_eq_empty_iff.mpr ?_
    intro i _ h
    exact absurd h.1 (Nat.not_lt_zero _)
  unfold Tally.Covered
  rw [hwaiting]
  exact Nat.le_refl _

/-- **A ping adds one to what was sent and clears one bit.** -/
theorem covered_pinger {data : PingData} (h : data.tally.Covered)
    (hwrap : data.numSent.toNat + 1 < 2 ^ 32) : (pinger data).tally.Covered := by
  have hsent : (pinger data).tally.numSent.toNat = data.numSent.toNat + 1 := toNat_add_one hwrap
  -- only the bit of the new ping can be waiting that was not before
  have hsub : (pinger data).tally.waiting
      ⊆ insert (cktabSlot data.numSent.toNat) data.tally.waiting := by
    intro i hi
    obtain ⟨-, hlt, hclear⟩ := Finset.mem_filter.mp hi
    rw [Finset.mem_insert]
    by_cases heq : i = cktabSlot data.numSent.toNat
    · exact .inl heq
    · refine .inr (Finset.mem_filter.mpr ⟨Finset.mem_univ i, ?_, ?_⟩)
      · -- the new ping has the bit of its own number, or of an earlier one
        have hne : i.val ≠ data.numSent.toNat := by
          intro hval
          refine heq (Fin.ext ?_)
          show i.val = data.numSent.toNat % cktabSize
          rw [← hval, Nat.mod_eq_of_lt i.isLt]
        rw [hsent] at hlt
        exact Nat.lt_of_le_of_ne (Nat.lt_succ_iff.mp hlt) hne
      · exact (bfUnset_ne data.cktab heq).symm.trans hclear
  have hcard := (Finset.card_le_card hsub).trans (Finset.card_insert_le _ _)
  unfold Tally.Covered at h ⊢
  rw [hsent]
  have hrecv : (pinger data).tally.numRecv = data.tally.numRecv := rfl
  have hold : data.tally.numSent = data.numSent := rfl
  rw [hrecv]
  rw [hold] at h
  omega

/-- **A reply that is counted as received takes its bit out of those that wait.** -/
theorem covered_countReply {data : PingData} {seq : UInt16} (h : data.tally.Covered)
    (hslot : (cktabSlot seq.toNat).val < data.numSent.toNat) :
    (data.countReply seq).tally.Covered := by
  unfold PingData.countReply
  by_cases hdup : data.cktab (cktabSlot seq.toNat)
  · rw [if_pos hdup]
    exact h
  · rw [if_neg hdup]
    have hmem : cktabSlot seq.toNat ∈ data.tally.waiting :=
      Finset.mem_filter.mpr ⟨Finset.mem_univ _, hslot, Bool.eq_false_iff.mpr hdup⟩
    let counted : Tally := ⟨data.numSent, data.numRecv + 1, data.numRept, data.count,
      bfSet data.cktab (cktabSlot seq.toNat)⟩
    have hsub : counted.waiting ⊆ data.tally.waiting.erase (cktabSlot seq.toNat) := by
      intro i hi
      obtain ⟨-, hlt, hclear⟩ := Finset.mem_filter.mp hi
      have hne : i ≠ cktabSlot seq.toNat := by
        rintro rfl
        simp [counted] at hclear
      refine Finset.mem_erase.mpr ⟨hne, Finset.mem_filter.mpr ⟨Finset.mem_univ i, hlt, ?_⟩⟩
      exact (bfSet_ne data.cktab hne).symm.trans hclear
    have hcard := Finset.card_le_card hsub
    rw [Finset.card_erase_of_mem hmem] at hcard
    -- a bit was waiting, so `num_recv` is below `num_sent` and does not wrap around
    have hpos := Finset.card_pos.mpr ⟨_, hmem⟩
    have hle : data.numRecv.toNat + data.tally.waiting.card ≤ data.numSent.toNat := h
    have hbound := data.numSent.toNat_lt
    have hrecv : (data.numRecv + 1).toNat = data.numRecv.toNat + 1 := toNat_add_one (by omega)
    show (data.numRecv + 1).toNat + counted.waiting.card ≤ data.numSent.toNat
    rw [hrecv]
    omega

/-- **Where counting is covered, the loss is a percentage**, also where the product in `_finish`
wraps around. -/
theorem Tally.Covered.percentLoss {data : PingData} (h : data.tally.Covered) :
    PercentLoss data := by
  have hrecv : data.numRecv.toNat ≤ data.numSent.toNat := Nat.le_trans (Nat.le_add_right _ _) h
  refine ⟨UInt32.le_iff_toNat_le.mpr hrecv, ?_⟩
  intro node hnode
  rw [finishRecord_packetLoss hnode, PingData.loss]
  split_ifs with hpos
  · rw [UInt32.le_iff_toNat_le, UInt32.toNat_div, UInt32.toNat_mul,
      UInt32.toNat_sub_of_le _ _ (UInt32.le_iff_toNat_le.mpr hrecv)]
    -- the product modulo 2 ^ 32 is at most the product
    refine Nat.div_le_of_le_mul ?_
    refine (Nat.mod_le _ _).trans ?_
    exact Nat.mul_le_mul_right _ (Nat.sub_le _ _)
  · decide

/-! ## Runs -/

/-- **Every step for which the counting is made keeps it covered.** -/
theorem covered_step [NetIpv6Addr] {cap : Nat} {count : UInt32} {s t : Measure} {e : MeasureEvent}
    (hc : AnswersSentPing s e) (h : s.data.tally.Covered)
    (hstep : measureStep cap count s e = some t) : t.data.tally.Covered := by
  cases measureStep_cases hstep with
  | start hpc hdata =>
    rename_i data
    have hzero : data.numSent = 0 := congrArg Tally.numSent (configure_tally hdata)
    refine covered_pinger ?_ ?_
    · rw [configure_tally hdata]
      exact covered_start count
    · rw [hzero]
      decide
  | @reply now env pkt queue hpc hqueue =>
    rw [data_loopTest]
    show (handleReply s.data pkt now).tally.Covered
    rw [handleReply_eq]
    cases hreply : s.data.acceptedReply pkt with
    | none => exact h
    | some icmpv6 =>
      have htally := tally_addTriptime s.data icmpv6 now
      refine covered_countReply ?_ ?_
      · rw [htally]
        exact h
      · rw [show (s.data.addTriptime icmpv6 now).numSent = s.data.numSent from
          congrArg Tally.numSent htally]
        exact hc.1 icmpv6 ((nextReply_eq hqueue).trans hreply)
  | next hpc hqueue =>
    rw [data_loopTest]
    exact covered_pinger h (hc.2 (nextPing_eq hqueue))
  | requeue hpc hqueue =>
    rw [data_loopTest]
    exact h
  | unconfigured | arrive | message | fire | last | finish | clean | cleaned => exact h

/-- **Where replies answer pings that were sent, packet loss is always a percentage.** -/
theorem percentLoss_of_answersSentPing [NetIpv6Addr] (cap : Nat) (count : UInt32) (queue : List Msg)
    (neighbours : List NeighborEntryl) (events : List MeasureEvent) (s : Measure)
    (hanswers : Meets (measureStep cap count) AnswersSentPing (.boot queue neighbours) events)
    (hrun : run (measureStep cap count) (.boot queue neighbours) events = some s) :
    PercentLoss s.data := by
  have hboot : (Measure.boot queue neighbours).data.tally.Covered := covered_start 0
  have hcovered : s.data.tally.Covered :=
    run_invariant (I := fun s => s.data.tally.Covered) (fun _ _ _ => covered_step) hanswers hboot
      hrun
  exact hcovered.percentLoss

attribute [local instance] gnrcIpv6Addr

/-- A run of three pings of which the first two are answered. -/
def echoedRun : List MeasureEvent :=
  .start smallConfig (linkLocal 1) smallSend :: smallEcho 1 0 ++ smallTick ++ smallEcho 1 1
    ++ smallTick ++ smallTick ++ [.finish]

theorem percentLoss_echoedRun :
    ∃ s, run (measureStep 8 defaultCount) (.boot [] []) echoedRun = some s ∧
      s.neighbours.map NeighborEntryl.packetLoss = [33] ∧ PercentLoss s.data := by
  have hrun : ∃ s, run (measureStep 8 defaultCount) (.boot [] []) echoedRun = some s ∧
      s.neighbours.map NeighborEntryl.packetLoss = [33] := exists_run_of_any (by decide)
  obtain ⟨s, hrun, hloss⟩ := hrun
  exact ⟨s, hrun, hloss, percentLoss_of_answersSentPing 8 defaultCount [] [] echoedRun s
    (by decide) hrun⟩

/-- A run in which the second and the third ping are answered before they are sent. -/
def forgedRun : List MeasureEvent :=
  .start smallConfig (linkLocal 1) smallSend :: smallEcho 1 0 ++ smallEcho 1 1 ++ smallEcho 1 2
    ++ [.finish]

/-- Three replies to one ping leave a loss of 4294967096 percent. -/
theorem not_lossAlwaysPercent : ¬ LossAlwaysPercent 8 defaultCount := by
  intro h
  have hrun : ∃ s, run (measureStep 8 defaultCount) (.boot [] []) forgedRun = some s ∧
      s.data.numSent = 1 ∧ s.data.numRecv = 3 ∧
      s.neighbours.map NeighborEntryl.packetLoss = [4294967096] := exists_run_of_any (by decide)
  obtain ⟨s, hrun, hsent, hrecv, -⟩ := hrun
  have hle := (h [] [] forgedRun s hrun).recv_le
  rw [hsent, hrecv] at hle
  exact absurd hle (by decide)

end Dca
