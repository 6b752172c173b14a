import Dca.Latency.Timers
import Mathlib.Data.List.Dedup

/-!
# The counters of one run

For a peer that only echoes and a run of at most `CKTAB_SIZE` pings every sequence number has a bit
of its own, which is set exactly when the number has been answered.
-/

namespace Dca

open CLib

/-- The number of different sequence numbers among the accepted replies. -/
def Measure.distinct (s : Measure) : Nat := s.accepted.dedup.length

/-- What the counters say about the run, and what `_finish` makes of them. -/
structure Accounted (count : UInt32) (s : Measure) : Prop where
  recv : s.data.numRecv.toNat = s.distinct
  recv_le : s.data.numRecv ≤ s.data.numSent
  sent_le : s.data.numSent ≤ count
  finish : s.pc = .finishing → s.data.numSent = count ∧ ∀ node, finishRecord s.data = .ok node →
    node.packetLoss.toNat = (count.toNat - s.distinct) * 100 / count.toNat

/-- A step of a single run with a peer that only echoes. -/
def EchoOnly [NetIpv6Addr] (s : Measure) : MeasureEvent → Prop
  | .start .. => s.runs = 0
  | .receive _ _ => ∀ icmpv6 ∈ s.nextReply, icmpv6.seq ∈ s.sent
  | _ => True

instance [NetIpv6Addr] (s : Measure) : (e : MeasureEvent) → Decidable (EchoOnly s e)
  | .start .. => inferInstanceAs (Decidable (s.runs = 0))
  | .receive _ _ => inferInstanceAs (Decidable (∀ icmpv6 ∈ s.nextReply, icmpv6.seq ∈ s.sent))
  | .arrive _ | .message _ | .fire | .finish | .cleanup => .isTrue trivial

/-- The counters are exact, `num_rept` without a bound. -/
def EchoAccounting [NetIpv6Addr] (cap : Nat) : Prop :=
  ∀ (count : UInt32) neighbours events s, 0 < count → count.toNat ≤ cktabSize →
    Meets (measureStep cap count) EchoOnly (.boot [] neighbours) events →
    run (measureStep cap count) (.boot [] neighbours) events = some s →
    Accounted count s ∧ s.data.numRept.toNat = s.accepted.length - s.distinct

/-- What the bits and counters of a run are. -/
structure Echoed (y : Tally) (sent accepted : List UInt16) : Prop where
  sent_mem : ∀ seq, seq ∈ sent ↔ seq.toNat < y.numSent.toNat
  sent_length : sent.length = y.numSent.toNat
  small : y.numSent.toNat ≤ cktabSize
  answered : accepted ⊆ sent
  bits : ∀ i, y.cktab i = true ↔ ∃ seq ∈ accepted, seq.toNat = i.val
  recv : y.numRecv.toNat = accepted.dedup.length
  rept : y.numRept = UInt32.ofNat (accepted.length - accepted.dedup.length)

/-! ## Pings and replies -/

theorem echoed_start (count : UInt32) : Echoed ({ count } : PingData).tally [] [] := by
  refine ⟨?_, rfl, Nat.zero_le _, fun _ h => h, ?_, rfl, rfl⟩
  · intro seq
    exact ⟨fun h => absurd h (List.not_mem_nil), fun h => absurd h (Nat.not_lt_zero _)⟩
  · intro i
    exact ⟨fun h => absurd h Bool.false_ne_true, fun ⟨_, h, _⟩ => absurd h (List.not_mem_nil)⟩

/-- No more numbers are answered than have been sent. -/
theorem Echoed.distinct_le {y : Tally} {sent accepted : List UInt16} (h : Echoed y sent accepted) :
    accepted.dedup.length ≤ y.numSent.toNat := by
  rw [← h.sent_length]
  refine List.Nodup.length_le_of_subset (List.nodup_dedup accepted) ?_
  intro seq hmem
  exact h.answered (List.mem_dedup.mp hmem)

variable {data : PingData} {sent accepted : List UInt16}

/-- **A ping takes a bit that no reply has touched.** -/
theorem echoed_pinger (h : Echoed data.tally sent accepted)
    (hlt : data.numSent.toNat < cktabSize) :
    Echoed (pinger data).tally (data.numSent.toUInt16 :: sent) accepted := by
  have hsize : cktabSize = 512 := rfl
  have hsent : (pinger data).tally.numSent.toNat = data.numSent.toNat + 1 :=
    toNat_add_one (by omega)
  have hseq : data.numSent.toUInt16.toNat = data.numSent.toNat := by
    rw [UInt32.toNat_toUInt16]
    exact Nat.mod_eq_of_lt (by omega)
  have hslot : (cktabSlot data.numSent.toNat).val = data.numSent.toNat := Nat.mod_eq_of_lt hlt
  refine ⟨?_, ?_, ?_, ?_, ?_, h.recv, h.rept⟩
  · intro seq
    rw [hsent, List.mem_cons, h.sent_mem, ← UInt16.toNat_inj, hseq]
    show _ ∨ seq.toNat < data.numSent.toNat ↔ _
    omega
  · rw [hsent, List.length_cons, h.sent_length]
    rfl
  · rw [hsent]
    exact hlt
  · exact fun seq hmem => List.mem_cons_of_mem _ (h.answered hmem)
  · intro i
    by_cases hi : i = cktabSlot data.numSent.toNat
    · -- the bit of the new ping is cleared, and no reply has its number
      subst hi
      rw [show (pinger data).tally.cktab _ = false from bfUnset_self data.cktab _]
      refine ⟨fun hset => absurd hset (by simp), ?_⟩
      rintro ⟨seq, hmem, heq⟩
      have hbelow : seq.toNat < data.numSent.toNat := (h.sent_mem seq).mp (h.answered hmem)
      omega
    · rw [show (pinger data).tally.cktab i = data.tally.cktab i from bfUnset_ne data.cktab hi]
      exact h.bits i

/-- A sequence number of this run has a bit of its own. -/
theorem Echoed.slot {y : Tally} (h : Echoed y sent accepted) {seq : UInt16} (hseq : seq ∈ sent) :
    (cktabSlot seq.toNat).val = seq.toNat := by
  have hbelow := (h.sent_mem seq).mp hseq
  have hsmall := h.small
  exact Nat.mod_eq_of_lt (by omega)

theorem Echoed.bit_iff {y : Tally} (h : Echoed y sent accepted) {seq : UInt16} (hseq : seq ∈ sent) :
    y.cktab (cktabSlot seq.toNat) = true ↔ seq ∈ accepted := by
  rw [h.bits, h.slot hseq]
  constructor
  · rintro ⟨seq', hmem, heq⟩
    exact UInt16.toNat_inj.mp heq ▸ hmem
  · intro hmem
    exact ⟨seq, hmem, rfl⟩

/-- **A duplicate** adds one to `num_rept`. -/
theorem echoed_duplicate {seq : UInt16} (h : Echoed data.tally sent accepted) (hseq : seq ∈ sent)
    (hdup : seq ∈ accepted) :
    Echoed { data with numRept := data.numRept + 1 }.tally sent (seq :: accepted) := by
  have hdedup : (seq :: accepted).dedup = accepted.dedup := List.dedup_cons_of_mem hdup
  have hle : accepted.dedup.length ≤ accepted.length := (List.dedup_sublist _).length_le
  have hmem : ∀ seq', seq' ∈ seq :: accepted ↔ seq' ∈ accepted := by
    intro seq'
    rw [List.mem_cons]
    constructor
    · rintro (rfl | h)
      · exact hdup
      · exact h
    · exact .inr
  refine ⟨h.sent_mem, h.sent_length, h.small, List.cons_subset.mpr ⟨hseq, h.answered⟩, ?_, ?_, ?_⟩
  · intro i
    simp only [hmem]
    exact h.bits i
  · rw [hdedup]
    exact h.recv
  · rw [hdedup, List.length_cons, Nat.succ_sub hle, ← Nat.add_one, UInt32.ofNat_add, ← h.rept]
    rfl

/-- **The first reply to a ping** sets its bit and adds one to `num_recv`. -/
theorem echoed_first {seq : UInt16} (h : Echoed data.tally sent accepted) (hseq : seq ∈ sent)
    (hnew : seq ∉ accepted) :
    Echoed { data with
        cktab := bfSet data.cktab (cktabSlot seq.toNat)
        numRecv := data.numRecv + 1 }.tally sent (seq :: accepted) := by
  have hslot := h.slot hseq
  have hdedup : (seq :: accepted).dedup = seq :: accepted.dedup := List.dedup_cons_of_notMem hnew
  refine ⟨h.sent_mem, h.sent_length, h.small, List.cons_subset.mpr ⟨hseq, h.answered⟩, ?_, ?_, ?_⟩
  · intro i
    show bfSet data.cktab (cktabSlot seq.toNat) i = true ↔ _
    by_cases hi : i = cktabSlot seq.toNat
    · subst hi
      exact ⟨fun _ => ⟨seq, List.mem_cons_self, hslot.symm⟩, fun _ => bfSet_self data.cktab _⟩
    · -- another bit: the new number does not select it
      rw [bfSet_ne data.cktab hi]
      refine (h.bits i).trans ⟨?_, ?_⟩
      · rintro ⟨seq', hmem, heq⟩
        exact ⟨seq', List.mem_cons_of_mem _ hmem, heq⟩
      · rintro ⟨seq', hmem, heq⟩
        rcases List.mem_cons.mp hmem with rfl | hmem
        · exact absurd (Fin.ext (heq.symm.trans hslot.symm)) hi
        · exact ⟨seq', hmem, heq⟩
  · have hsmall : data.numSent.toNat ≤ 512 := h.small
    have hle : accepted.dedup.length ≤ data.numSent.toNat := h.distinct_le
    have hrecv : data.numRecv.toNat = accepted.dedup.length := h.recv
    show (data.numRecv + 1).toNat = _
    rw [hdedup, List.length_cons, toNat_add_one (by omega), hrecv]
  · rw [hdedup, List.length_cons, List.length_cons, Nat.add_sub_add_right]
    exact h.rept

/-- **A reply to a ping of this run is counted as received once.** -/
theorem echoed_countReply {seq : UInt16} (h : Echoed data.tally sent accepted)
    (hseq : seq ∈ sent) : Echoed (data.countReply seq).tally sent (seq :: accepted) := by
  have hbit : data.cktab (cktabSlot seq.toNat) = true ↔ seq ∈ accepted := h.bit_iff hseq
  unfold PingData.countReply
  by_cases hdup : seq ∈ accepted
  · rw [if_pos (hbit.mpr hdup)]
    exact echoed_duplicate h hseq hdup
  · rw [if_neg (fun hset => hdup (hbit.mp hset))]
    exact echoed_first h hseq hdup

/-! ## The run -/

/-- The invariant of a single run. -/
structure SingleRun (count : UInt32) (s : Measure) : Prop where
  timed : Timed count s
  echoed : Echoed s.data.tally s.sent s.accepted
  fresh : s.runs = 0 → s.pc = .idle ∧ s.outstanding = []

variable {cap : Nat} {count : UInt32} {s t : Measure} {e : MeasureEvent}

theorem EchoOnly.startsQuiet [NetIpv6Addr] (hc : EchoOnly s e) (h : SingleRun count s) :
    StartsQuiet s e := by
  cases e with
  | start cfg neigh env => exact (h.fresh hc).2
  | arrive | message | fire | receive | finish | cleanup => trivial

theorem echoed_loopTest (h : Echoed s.data.tally s.sent s.accepted) :
    Echoed s.loopTest.data.tally s.loopTest.sent s.loopTest.accepted := by
  obtain ⟨pc, heq, -⟩ := loopTest_eq s
  rw [heq]
  exact h

/-- **The bits and the counters through one step.** -/
theorem echoed_step [NetIpv6Addr] (hsize : count.toNat ≤ cktabSize) (hc : EchoOnly s e)
    (h : SingleRun count s)
    (hstep : measureStep cap count s e = some t) : Echoed t.data.tally t.sent t.accepted := by
  cases measureStep_cases hstep with
  | @start cfg neigh env data hpc hdata =>
    have htally := configure_tally hdata
    have hnum : data.numSent = 0 := congrArg Tally.numSent htally
    refine echoed_pinger ?_ ?_
    · rw [htally]
      exact echoed_start count
    · rw [hnum]
      decide
  | @reply now env pkt queue hpc hqueue =>
    refine echoed_loopTest (s := Measure.reply { s with queue } pkt now) ?_
    show Echoed (handleReply s.data pkt now).tally s.sent
      (((s.data.acceptedReply pkt).map Icmpv6Snip.seq).toList ++ s.accepted)
    rw [handleReply_eq]
    cases hreply : s.data.acceptedReply pkt with
    | none => exact h.echoed
    | some icmpv6 =>
      refine echoed_countReply ?_ (hc icmpv6 ((nextReply_eq hqueue).trans hreply))
      rw [tally_addTriptime]
      exact h.echoed
  | @next now env firedIn queue hpc hqueue =>
    refine echoed_loopTest (s := Measure.ping { s with queue } env) ?_
    refine echoed_pinger h.echoed ?_
    -- the timer message says that fewer than `count` pings have been sent
    have hdue := ((h.timed.timer hpc).own (.sendNextPing, firedIn) (by
      rw [Measure.outstanding, hqueue]
      simp [Msg.timer?])).2
    have hlt : s.sent.length < count.toNat := hdue
    rw [h.timed.sent_eq]
    omega
  | requeue hpc hqueue => exact echoed_loopTest h.echoed
  | unconfigured | arrive | message | fire | last | finish | clean | cleaned => exact h.echoed

/-- Before the first run no timer is set. -/
theorem fresh_step [NetIpv6Addr] (h : SingleRun count s)
    (hstep : measureStep cap count s e = some t)
    (hruns : t.runs = 0) : t.pc = .idle ∧ t.outstanding = [] := by
  have hold : s.runs = 0 → s.pc ≠ .receiving ∧ s.pc ≠ .finishing ∧ ∀ i, s.pc ≠ .cleaning i := by
    intro hzero
    rw [(h.fresh hzero).1]
    exact ⟨by simp, by simp, by simp⟩
  cases measureStep_cases hstep with
  | unconfigured hpc => exact h.fresh hruns
  | start hpc hdata => cases hruns
  | arrive =>
    rw [Measure.outstanding, timers_enqueue rfl]
    exact h.fresh hruns
  | message =>
    rw [Measure.outstanding, timers_enqueue rfl]
    exact h.fresh hruns
  | fire htimer =>
    have hout := (h.fresh hruns).2
    rw [Measure.outstanding, htimer] at hout
    cases hout
  | reply hpc hqueue | next hpc hqueue | requeue hpc hqueue =>
    obtain ⟨pc, heq, -⟩ := loopTest_eq _
    rw [heq] at hruns
    exact absurd hpc (hold hruns).1
  | last hpc hqueue => exact absurd hpc (hold hruns).1
  | finish hpc hfinish => exact absurd hpc (hold hruns).2.1
  | clean hpc hqueue => exact absurd hpc ((hold hruns).2.2 _)
  | cleaned hpc => exact absurd hpc ((hold hruns).2.2 _)

theorem singleRun_step [NetIpv6Addr] (hcount : 0 < count) (hsize : count.toNat ≤ cktabSize)
    (hc : EchoOnly s e)
    (h : SingleRun count s) (hstep : measureStep cap count s e = some t) : SingleRun count t :=
  ⟨timed_step hcount (hc.startsQuiet h) h.timed hstep, echoed_step hsize hc h hstep,
    fresh_step h hstep⟩

/-- **The percentage is not cut off.** -/
theorem loss_eq (hsize : count.toNat ≤ cktabSize) {data : PingData} (hsent : data.numSent = count)
    (hrecv : data.numRecv ≤ data.numSent) (hcount : 0 < count) :
    data.loss.toNat = (count.toNat - data.numRecv.toNat) * 100 / count.toNat := by
  have hbound : (count.toNat - data.numRecv.toNat) * 100 ≤ cktabSize * 100 :=
    Nat.mul_le_mul_right _ ((Nat.sub_le _ _).trans hsize)
  rw [PingData.loss, hsent, if_pos hcount, UInt32.toNat_div, UInt32.toNat_mul,
    UInt32.toNat_sub_of_le _ _ (hsent ▸ hrecv)]
  congr 1
  exact Nat.mod_eq_of_lt (hbound.trans_lt (by decide))

theorem SingleRun.accounted (h : SingleRun count s) (hcount : 0 < count)
    (hsize : count.toNat ≤ cktabSize) : Accounted count s := by
  have hrecv : s.data.numRecv.toNat = s.distinct := h.echoed.recv
  have hrecv_le : s.data.numRecv ≤ s.data.numSent := by
    rw [UInt32.le_iff_toNat_le, hrecv]
    exact h.echoed.distinct_le
  have hsent_le : s.data.numSent ≤ count := by
    rw [UInt32.le_iff_toNat_le, h.timed.sent_eq]
    exact h.timed.sent_le
  refine ⟨hrecv, hrecv_le, hsent_le, ?_⟩
  intro hpc
  have hsent : s.data.numSent = count := by
    rcases h.timed.stop hpc with hall | hall
    · rw [← UInt32.toNat_inj, h.timed.sent_eq, hall]
    · -- with `count` different replies, as many pings have been sent
      exact UInt32.le_antisymm hsent_le (UInt32.le_trans hall hrecv_le)
  refine ⟨hsent, ?_⟩
  intro node hnode
  rw [finishRecord_packetLoss hnode, ← hrecv]
  exact loss_eq hsize hsent hrecv_le hcount

/-- **With a peer that only echoes, the counters of a run are what happened in it**, `num_rept` as
far as an `unsigned long` can say it. -/
theorem accounted_of_echoOnly [NetIpv6Addr] (cap : Nat) (count : UInt32) (hcount : 0 < count)
    (hsize : count.toNat ≤ cktabSize) (neighbours : List NeighborEntryl)
    (events : List MeasureEvent) (s : Measure)
    (hecho : Meets (measureStep cap count) EchoOnly (.boot [] neighbours) events)
    (hrun : run (measureStep cap count) (.boot [] neighbours) events = some s) :
    Accounted count s ∧ s.data.numRept.toNat = (s.accepted.length - s.distinct) % 2 ^ 32 := by
  have hboot : SingleRun count (.boot [] neighbours) :=
    ⟨timed_boot count [] neighbours, echoed_start 0, fun _ => ⟨rfl, rfl⟩⟩
  have h : SingleRun count s :=
    run_invariant (fun _ _ _ hc h => singleRun_step hcount hsize hc h) hecho hboot hrun
  refine ⟨h.accounted hcount hsize, ?_⟩
  have hrept : s.data.numRept = UInt32.ofNat (s.accepted.length - s.distinct) := h.echoed.rept
  rw [hrept, UInt32.toNat_ofNat']

attribute [local instance] gnrcIpv6Addr

/-- A run with a duplicate and a lost reply. -/
def duplicatedRun : List MeasureEvent :=
  .start smallConfig (linkLocal 1) smallSend :: smallTick ++ smallEcho 1 1 ++ smallEcho 1 0
    ++ smallEcho 1 1 ++ smallTick ++ smallTick

theorem accounted_duplicatedRun :
    ∃ s, run (measureStep 8 defaultCount) (.boot [] []) duplicatedRun = some s ∧
      (s.pc = .finishing ∧ s.accepted.length = 3 ∧ s.distinct = 2) ∧
      Accounted defaultCount s ∧
      s.data.numRept.toNat = (s.accepted.length - s.distinct) % 2 ^ 32 := by
  have hrun : ∃ s, run (measureStep 8 defaultCount) (.boot [] []) duplicatedRun = some s ∧
      (s.pc = .finishing ∧ s.accepted.length = 3 ∧ s.distinct = 2) :=
    exists_run_of_any (by decide)
  obtain ⟨s, hrun, hend⟩ := hrun
  exact ⟨s, hrun, hend, accounted_of_echoOnly 8 defaultCount (by decide) (by decide) []
    duplicatedRun s (by decide) hrun⟩

/-! ## More duplicates than an `unsigned long` counts -/

/-- One ping has been answered `n + 1` times. -/
structure Flooded (n : Nat) (s : Measure) : Prop where
  pc : s.pc = .receiving
  queue : s.queue = []
  host : s.data.host = linkLocal 1
  datalen : s.data.datalen = 4
  id : s.data.id = 0x53
  count : s.data.count = defaultCount
  bit : s.data.cktab (cktabSlot 0) = true
  numRecv : s.data.numRecv = 1
  numRept : s.data.numRept = UInt32.ofNat n
  sent : s.sent = [0]
  accepted : s.accepted = List.replicate (n + 1) 0

/-- `n` replies to the first ping. -/
def flood (n : Nat) : List MeasureEvent := (List.replicate n (smallEcho 1 0)).flatten

theorem acceptedReply_flooded [NetIpv6Addr] {n : Nat} (h : Flooded n s) :
    s.data.acceptedReply (smallReply 1 0) = some ⟨12, icmpv6EchoRep, 0x53, 0, 0⟩ := by
  have haccepts : s.data.accepts ⟨12, icmpv6EchoRep, 0x53, 0, 0⟩ (linkLocal 1) = true := by
    simp [PingData.accepts, h.datalen, h.id, h.host, sizeofIcmpv6Echo]
  show (if s.data.accepts ⟨12, icmpv6EchoRep, 0x53, 0, 0⟩ (linkLocal 1) = true then _ else _) = _
  rw [if_pos haccepts]

theorem addTriptime_frame (data : PingData) (icmpv6 : Icmpv6Snip) (now : UInt32) :
    (data.addTriptime icmpv6 now).host = data.host ∧
      (data.addTriptime icmpv6 now).datalen = data.datalen ∧
      (data.addTriptime icmpv6 now).id = data.id := by
  unfold PingData.addTriptime
  split_ifs
  · exact ⟨rfl, rfl, rfl⟩
  · exact ⟨rfl, rfl, rfl⟩

/-- The data after one more duplicate. -/
def afterDuplicate (data : PingData) : PingData :=
  let timed := data.addTriptime ⟨12, icmpv6EchoRep, 0x53, 0, 0⟩ 2000
  { timed with numRept := timed.numRept + 1 }

theorem handleReply_flooded [NetIpv6Addr] {n : Nat} (h : Flooded n s) :
    handleReply s.data (smallReply 1 0) 2000 = afterDuplicate s.data := by
  have hbit : (s.data.addTriptime ⟨12, icmpv6EchoRep, 0x53, 0, 0⟩ 2000).cktab (cktabSlot 0) = true :=
    (congrFun (congrArg Tally.cktab (tally_addTriptime _ _ _)) _).trans h.bit
  rw [handleReply_eq, acceptedReply_flooded h]
  exact if_pos hbit

/-- The thread after one more duplicate. -/
theorem flooded_afterDuplicate {n : Nat} (h : Flooded n s) :
    Flooded (n + 1)
      { s with queue := [], data := afterDuplicate s.data, accepted := 0 :: s.accepted } := by
  have htally := tally_addTriptime s.data ⟨12, icmpv6EchoRep, 0x53, 0, 0⟩ 2000
  obtain ⟨hhost, hlen, hid⟩ := addTriptime_frame s.data ⟨12, icmpv6EchoRep, 0x53, 0, 0⟩ 2000
  refine ⟨h.pc, rfl, hhost.trans h.host, hlen.trans h.datalen, hid.trans h.id, ?_, ?_, ?_, ?_,
    h.sent, ?_⟩
  · exact (congrArg Tally.count htally).trans h.count
  · exact (congrFun (congrArg Tally.cktab htally) _).trans h.bit
  · exact (congrArg Tally.numRecv htally).trans h.numRecv
  · have hrept : (s.data.addTriptime ⟨12, icmpv6EchoRep, 0x53, 0, 0⟩ 2000).numRept
        = UInt32.ofNat n := (congrArg Tally.numRept htally).trans h.numRept
    show _ + 1 = _
    rw [hrept, UInt32.ofNat_add]
    rfl
  · show 0 :: s.accepted = _
    rw [h.accepted]
    rfl

/-- **One more duplicate.** -/
theorem flooded_echo [NetIpv6Addr] {n : Nat} (h : Flooded n s) :
    ∃ u t, measureStep 8 defaultCount s (.arrive (smallReply 1 0)) = some u ∧
      measureStep 8 defaultCount u (.receive 2000 smallSend) = some t ∧
      Flooded (n + 1) t ∧ EchoOnly u (.receive 2000 smallSend) := by
  have hreply := acceptedReply_flooded h
  have hnext := flooded_afterDuplicate h
  refine ⟨{ s with queue := [.rcv (smallReply 1 0)] }, _, ?_, ?_, hnext, ?_⟩
  · show some { s with queue := enqueue 8 s.queue _ } = _
    rw [h.queue]
    rfl
  · show (if s.pc = .receiving then _ else none) = _
    rw [if_pos h.pc]
    show some (Measure.reply { s with queue := [] } (smallReply 1 0) 2000).loopTest = _
    have hafter : Measure.reply { s with queue := [] } (smallReply 1 0) 2000
        = { s with queue := [], data := afterDuplicate s.data, accepted := 0 :: s.accepted } := by
      rw [Measure.reply]
      dsimp only
      rw [handleReply_flooded h, hreply]
      rfl
    -- one reply has been counted of three: the loop goes on
    have hloop : (afterDuplicate s.data).numRecv < (afterDuplicate s.data).count := by
      have hrecv : (afterDuplicate s.data).numRecv = 1 := hnext.numRecv
      have hcount : (afterDuplicate s.data).count = defaultCount := hnext.count
      rw [hrecv, hcount]
      decide
    rw [hafter, Measure.loopTest]
    exact congrArg some (if_pos hloop)
  · intro icmpv6 hmem
    have hseq : s.data.acceptedReply (smallReply 1 0) = some icmpv6 := hmem
    obtain rfl := Option.some.inj (hreply.symm.trans hseq)
    show (0 : UInt16) ∈ s.sent
    rw [h.sent]
    exact List.mem_singleton_self 0

/-- **A flood of duplicates is a run with a peer that only echoes.** -/
theorem flooded_flood [NetIpv6Addr] {n k : Nat} (h : Flooded n s) :
    ∃ t, run (measureStep 8 defaultCount) s (flood k) = some t ∧ Flooded (n + k) t ∧
      Meets (measureStep 8 defaultCount) EchoOnly s (flood k) := by
  induction k generalizing n s with
  | zero => exact ⟨s, rfl, h, trivial⟩
  | succ k ih =>
    obtain ⟨u, v, hu, hv, hflooded, hecho⟩ := flooded_echo h
    obtain ⟨t, hrun, ht, hmeets⟩ := ih hflooded
    refine ⟨t, ?_, ?_, ?_⟩
    · show run (measureStep 8 defaultCount) s (.arrive _ :: .receive _ _ :: flood k) = some t
      rw [run_cons_eq_some]
      exact ⟨u, hu, run_cons_eq_some.mpr ⟨v, hv, hrun⟩⟩
    · rw [← Nat.add_assoc, Nat.add_right_comm]
      exact ht
    · show Meets _ EchoOnly s (.arrive _ :: .receive _ _ :: flood k)
      refine ⟨trivial, fun u' hu' => ?_⟩
      obtain rfl := Option.some.inj (hu.symm.trans hu')
      refine ⟨hecho, fun v' hv' => ?_⟩
      obtain rfl := Option.some.inj (hv.symm.trans hv')
      exact hmeets

/-- After 2 ^ 32 duplicates `num_rept` is 0. -/
theorem not_echoAccounting : ¬ EchoAccounting 8 := by
  intro hclaim
  let start : List MeasureEvent := .start smallConfig (linkLocal 1) smallSend :: smallEcho 1 0
  obtain ⟨s, hstart, h⟩ : ∃ s, run (measureStep 8 defaultCount) (.boot [] []) start = some s ∧
      Flooded 0 s := by
    refine ⟨_, rfl, ?_⟩
    refine ⟨by decide, by decide, by decide, by decide, by decide, by decide, by decide, by decide,
      by decide, by decide, by decide⟩
  have hmeets : Meets (measureStep 8 defaultCount) EchoOnly (.boot [] []) start := by decide
  obtain ⟨t, hflood, ht, hmeets'⟩ := flooded_flood (k := 2 ^ 32) h
  have hrun := run_append_eq_some.mpr ⟨s, hstart, hflood⟩
  have hecho := Meets.append hmeets hstart hmeets'
  have hrept := (hclaim defaultCount [] _ t (by decide) (by decide) hecho hrun).2
  have hlen : t.accepted.length = 2 ^ 32 + 1 := by
    rw [ht.accepted, List.length_replicate, Nat.zero_add]
  have hdistinct : t.distinct = 1 := by
    rw [Measure.distinct, ht.accepted, List.replicate_dedup (by simp)]
    rfl
  rw [ht.numRept, hlen, hdistinct] at hrept
  exact absurd hrept (by simp)

end Dca
