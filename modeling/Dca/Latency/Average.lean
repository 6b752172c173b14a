import Dca.Latency.Steps
import Dca.Neighbour.Store

/-!
# The average latency of a run

The guard of `_finish` looks at `tmin`, and the divisor is the sum of two counters. Each accepted
reply adds its trip time to `tsum` and one to one of the counters, so that the divisor is the number
of trip times as long as there are fewer than 2 ^ 32, and `tsum` with its 64 bits is their sum. A
`tmin` below `UINT_MAX` is one of them. When all of them are `UINT_MAX`, the branch is not taken.
-/

namespace Dca

open CLib

/-! ## The statement -/

/-- The trip times of the accepted replies of a run, newest first, as a history variable. -/
def recordTrip [NetIpv6Addr] (s : Measure) : MeasureEvent → Measure → List UInt32 → List UInt32
  | .start .., t, trips => if t.runs = s.runs then trips else []
  | .receive now _, _, trips => (s.nextReply.map fun icmpv6 => now - icmpv6.stamp).toList ++ trips
  | _, _, trips => trips

/-- `_finish` divides by the number of the trip times, and stores a latency between the extremes. -/
structure Averages (data : PingData) (trips : List UInt32) : Prop where
  divisor_pos : data.tmin ≠ uintMax → 0 < data.numRecv + data.numRept
  divisor : (data.numRecv + data.numRept).toNat = trips.length
  tsum : data.tsum.toNat = (trips.map UInt32.toNat).sum
  stored : ∀ l, ∃ l' res e, finish data l = .ok (l', res) ∧
    lookupKey NeighborEntryl.addr data.host l' = some e ∧
    (data.tmin ≠ uintMax → data.tmin ≤ e.latency ∧ e.latency ≤ data.tmax) ∧
    (data.tmin = uintMax → e.latency = 0)

/-! ## What is kept of the trip times -/

/-- `tsum`, `tmin` and `tmax` -/
structure Stopwatch where
  tsum : UInt64
  tmin : UInt32
  tmax : UInt32

def PingData.stopwatch (data : PingData) : Stopwatch := ⟨data.tsum, data.tmin, data.tmax⟩

/-- One more trip time. -/
def Stopwatch.add (y : Stopwatch) (trip : UInt32) : Stopwatch where
  tsum := y.tsum + trip.toUInt64
  tmin := if trip < y.tmin then trip else y.tmin
  tmax := if y.tmax < trip then trip else y.tmax

/-- The sum and the extremes are those of the trip times. `UINT_MAX` stands for no minimum. -/
structure Stopwatch.Of (y : Stopwatch) (trips : List UInt32) : Prop where
  tsum : y.tsum.toNat = (trips.map UInt32.toNat).sum
  between : ∀ trip ∈ trips, y.tmin ≤ trip ∧ trip ≤ y.tmax
  least : y.tmin ≠ uintMax → y.tmin ∈ trips

/-- What the data says about the trip times. -/
structure Trips (data : PingData) (trips : List UInt32) : Prop where
  datalen : 4 ≤ data.datalen
  counted : data.numRecv.toNat + data.numRept.toNat = trips.length
  stopwatch : data.stopwatch.Of trips

/-! ## Sums -/

/-- The mean of numbers between two bounds is between the bounds. -/
theorem mean_between {a b : Nat} {xs : List Nat} (hne : xs ≠ [])
    (h : ∀ x ∈ xs, a ≤ x ∧ x ≤ b) : a ≤ xs.sum / xs.length ∧ xs.sum / xs.length ≤ b := by
  have hmin : a ≤ xs.min hne := (h _ (List.min_mem hne)).1
  have hmax : xs.max hne ≤ b := (h _ (List.max_mem hne)).2
  exact ⟨Nat.le_trans hmin (List.min_le_sum_div_length_nat hne),
    Nat.le_trans (List.sum_div_length_le_max_nat hne) hmax⟩

/-- Fewer than 2 ^ 32 numbers of 32 bits have a sum of 64 bits. -/
theorem sum_trips_lt {trips : List UInt32} (h : trips.length < 2 ^ 32) :
    (trips.map UInt32.toNat).sum < 2 ^ 64 := by
  have hsum : (trips.map UInt32.toNat).sum ≤ trips.length * (2 ^ 32 - 1) := by
    clear h
    induction trips with
    | nil => exact Nat.le_refl 0
    | cons trip trips ih =>
      have hlt := trip.toNat_lt
      rw [List.map_cons, List.sum_cons, List.length_cons]
      omega
  omega

/-! ## Replies -/

/-- **One more trip time keeps the sum and the extremes right.** -/
theorem Stopwatch.Of.add {y : Stopwatch} {trips : List UInt32} (h : y.Of trips) (trip : UInt32)
    (hlt : trips.length + 1 < 2 ^ 32) : (y.add trip).Of (trip :: trips) := by
  refine ⟨?_, ?_, ?_⟩
  · have hbound : ((trip :: trips).map UInt32.toNat).sum < 2 ^ 64 := sum_trips_lt hlt
    rw [List.map_cons, List.sum_cons] at hbound ⊢
    rw [Stopwatch.add, UInt64.toNat_add, UInt32.toNat_toUInt64, h.tsum, Nat.add_comm]
    exact Nat.mod_eq_of_lt hbound
  · have hmin : (y.add trip).tmin ≤ trip ∧ (y.add trip).tmin ≤ y.tmin := by
      dsimp only [Stopwatch.add]
      split_ifs with hless
      · exact ⟨UInt32.le_refl _, UInt32.le_of_lt hless⟩
      · exact ⟨UInt32.not_lt.mp hless, UInt32.le_refl _⟩
    have hmax : trip ≤ (y.add trip).tmax ∧ y.tmax ≤ (y.add trip).tmax := by
      dsimp only [Stopwatch.add]
      split_ifs with hmore
      · exact ⟨UInt32.le_refl _, UInt32.le_of_lt hmore⟩
      · exact ⟨UInt32.not_lt.mp hmore, UInt32.le_refl _⟩
    intro trip' hmem
    rcases List.mem_cons.mp hmem with rfl | hmem
    · exact ⟨hmin.1, hmax.1⟩
    · obtain ⟨hle, hge⟩ := h.between trip' hmem
      exact ⟨UInt32.le_trans hmin.2 hle, UInt32.le_trans hge hmax.2⟩
  · dsimp only [Stopwatch.add]
    split_ifs
    · exact fun _ => List.mem_cons_self
    · exact fun hne => List.mem_cons_of_mem _ (h.least hne)

variable {data : PingData} {trips : List UInt32}

/-- A reply adds its trip time. -/
theorem stopwatch_addTriptime (h : 4 ≤ data.datalen) (icmpv6 : Icmpv6Snip) (now : UInt32) :
    (data.addTriptime icmpv6 now).stopwatch = data.stopwatch.add (now - icmpv6.stamp) ∧
      (data.addTriptime icmpv6 now).datalen = data.datalen := by
  rw [PingData.addTriptime, if_pos h]
  exact ⟨rfl, rfl⟩

/-- Counting a reply leaves the trip times alone. -/
theorem stopwatch_countReply (data : PingData) (seq : UInt16) :
    (data.countReply seq).stopwatch = data.stopwatch ∧
      (data.countReply seq).datalen = data.datalen := by
  unfold PingData.countReply
  split_ifs
  · exact ⟨rfl, rfl⟩
  · exact ⟨rfl, rfl⟩

/-- The first reply on a bit is counted as received, every other one as a duplicate. -/
theorem counted_countReply (data : PingData) (seq : UInt16)
    (h : data.numRecv.toNat + data.numRept.toNat + 1 < 2 ^ 32) :
    (data.countReply seq).numRecv.toNat + (data.countReply seq).numRept.toNat
      = data.numRecv.toNat + data.numRept.toNat + 1 := by
  unfold PingData.countReply
  split_ifs
  · show data.numRecv.toNat + (data.numRept + 1).toNat = _
    rw [toNat_add_one (by omega), Nat.add_assoc]
  · show (data.numRecv + 1).toNat + data.numRept.toNat = _
    rw [toNat_add_one (by omega), Nat.add_right_comm]

/-- **One more accepted reply.** -/
theorem Trips.reply (h : Trips data trips) (icmpv6 : Icmpv6Snip) (now : UInt32)
    (hlt : trips.length + 1 < 2 ^ 32) :
    Trips ((data.addTriptime icmpv6 now).countReply icmpv6.seq)
      ((now - icmpv6.stamp) :: trips) := by
  obtain ⟨hwatch, hlen⟩ := stopwatch_addTriptime h.datalen icmpv6 now
  obtain ⟨hwatch', hlen'⟩ := stopwatch_countReply (data.addTriptime icmpv6 now) icmpv6.seq
  have htally := tally_addTriptime data icmpv6 now
  have hrecv : (data.addTriptime icmpv6 now).numRecv = data.numRecv := congrArg Tally.numRecv htally
  have hrept : (data.addTriptime icmpv6 now).numRept = data.numRept := congrArg Tally.numRept htally
  have hcounted := h.counted
  have hcount := counted_countReply (data.addTriptime icmpv6 now) icmpv6.seq
    (by rw [hrecv, hrept]; omega)
  refine ⟨?_, ?_, ?_⟩
  · rw [hlen', hlen]
    exact h.datalen
  · rw [hcount, hrecv, hrept, hcounted, List.length_cons]
  · rw [hwatch', hwatch]
    exact h.stopwatch.add _ hlt

/-! ## Runs -/

theorem trips_fresh (count : UInt32) : Trips { count } [] :=
  ⟨Nat.le_refl 4, rfl, ⟨rfl, by simp, fun h => absurd rfl h⟩⟩

theorem trips_configure [NetIpv6Addr] {cfg : NetConfig} {neigh : Ipv6Addr} {count : UInt32}
    (h : configure cfg neigh { count } = some data) : Trips data [] := by
  dsimp only [configure] at h
  split at h
  · cases h
  · obtain rfl := Option.some.inj h
    exact ⟨Nat.le_refl 4, rfl, ⟨rfl, by simp, fun h => absurd rfl h⟩⟩

/-- **Every step keeps account of the trip times**, as long as there are not too many. -/
theorem trips_step [NetIpv6Addr] {cap : Nat} {count : UInt32} {s t : Measure} {e : MeasureEvent}
    (h : trips.length < 2 ^ 32 → Trips s.data trips)
    (hstep : measureStep cap count s e = some t) :
    (recordTrip s e t trips).length < 2 ^ 32 → Trips t.data (recordTrip s e t trips) := by
  cases measureStep_cases hstep with
  | unconfigured hpc =>
    rw [recordTrip, if_pos rfl]
    exact h
  | @start cfg neigh env data hpc hdata =>
    have hfresh := trips_configure hdata
    have hreset : ∀ t : Measure, t.runs = s.runs + 1 →
        recordTrip s (.start cfg neigh env) t trips = [] := fun t ht => if_neg (by omega)
    intro _
    rw [hreset _ rfl]
    exact ⟨hfresh.datalen, hfresh.counted, hfresh.stopwatch⟩
  | @reply now env pkt queue hpc hqueue =>
    rw [data_loopTest, recordTrip, nextReply_eq hqueue]
    show _ → Trips (handleReply s.data pkt now) _
    rw [handleReply_eq]
    cases s.data.acceptedReply pkt with
    | none => exact h
    | some icmpv6 =>
      intro hlt
      have hlt' : trips.length + 1 < 2 ^ 32 := hlt
      exact (h (by omega)).reply icmpv6 now hlt'
  | @next now env firedIn queue hpc hqueue =>
    have hnone : s.nextReply = none := by rw [Measure.nextReply, hqueue]
    rw [data_loopTest, recordTrip, hnone]
    intro hlt
    have hold := h hlt
    exact ⟨hold.datalen, hold.counted, hold.stopwatch⟩
  | @last now env firedIn queue hpc hqueue =>
    have hnone : s.nextReply = none := by rw [Measure.nextReply, hqueue]
    rw [recordTrip, hnone]
    exact h
  | @requeue now env type queue hpc hqueue =>
    have hnone : s.nextReply = none := by rw [Measure.nextReply, hqueue]
    rw [data_loopTest, recordTrip, hnone]
    exact h
  | arrive | message | fire | finish | clean | cleaned => exact h

/-! ## `_finish` -/

/-- The divisor is the number of the trip times. -/
theorem Trips.divisor (h : Trips data trips) (hlt : trips.length < 2 ^ 32) :
    (data.numRecv + data.numRept).toNat = trips.length := by
  have hcounted := h.counted
  rw [UInt32.toNat_add, hcounted]
  exact Nat.mod_eq_of_lt hlt

/-- **The quotient is the mean of the trip times.** -/
theorem Trips.tavg (h : Trips data trips) (hlt : trips.length < 2 ^ 32) :
    ∃ latency, data.tavg = .ok latency ∧
      (data.tmin ≠ uintMax → data.tmin ≤ latency ∧ latency ≤ data.tmax) ∧
      (data.tmin = uintMax → latency = 0) := by
  by_cases hmax : data.tmin = uintMax
  · refine ⟨0, ?_, fun hne => absurd hmax hne, fun _ => rfl⟩
    rw [PingData.tavg, if_neg (not_not.mpr hmax)]
  · have hdivisor := h.divisor hlt
    have hmem : data.tmin ∈ trips := h.stopwatch.least hmax
    have hpos : 0 < trips.length := List.length_pos_of_mem hmem
    have hne : data.numRecv + data.numRept ≠ 0 := by
      intro hzero
      rw [hzero] at hdivisor
      exact absurd hdivisor.symm (Nat.ne_of_gt hpos)
    have htrips : trips.map UInt32.toNat ≠ [] := by
      rw [Ne, List.map_eq_nil_iff]
      exact List.length_pos_iff.mp hpos
    obtain ⟨hlo, hhi⟩ := mean_between (a := data.tmin.toNat) (b := data.tmax.toNat) htrips (by
      intro x hx
      obtain ⟨trip, htrip, rfl⟩ := List.mem_map.mp hx
      exact h.stopwatch.between trip htrip)
    have htsum : data.tsum.toNat = (trips.map UInt32.toNat).sum := h.stopwatch.tsum
    rw [List.length_map] at hlo hhi
    let latency := (data.tsum / (data.numRecv + data.numRept).toUInt64).toUInt32
    have hquot : latency.toNat = (trips.map UInt32.toNat).sum / trips.length := by
      dsimp only [latency]
      rw [UInt64.toNat_toUInt32, UInt64.toNat_div, UInt32.toNat_toUInt64, hdivisor, htsum]
      -- the mean has no more bits than `tmax`
      exact Nat.mod_eq_of_lt (Nat.lt_of_le_of_lt hhi data.tmax.toNat_lt)
    refine ⟨latency, ?_, fun _ => ⟨?_, ?_⟩, fun heq => absurd heq hmax⟩
    · rw [PingData.tavg, if_pos hmax, if_neg hne]
    · rw [UInt32.le_iff_toNat_le, hquot]
      exact hlo
    · rw [UInt32.le_iff_toNat_le, hquot]
      exact hhi

/-- The record of `_finish` is what the list has for its address, apart from the throughput. -/
theorem lookup_finishStore (l : List NeighborEntryl) (addr : Ipv6Addr) (latency loss : UInt32) :
    ∃ e, lookupKey NeighborEntryl.addr addr (finishStore l ⟨addr, latency, loss, 0⟩) = some e ∧
      e.latency = latency := by
  have hstore : finishStore l ⟨addr, latency, loss, 0⟩
      = upsertKey NeighborEntryl.addr _ addr (unmeasured addr) l :=
    apply_eq l (.latency addr latency loss)
  have hlookup := lookupKey_upsertKey (StatOp.addr_write (.latency addr latency loss))
    (show (unmeasured addr).addr = addr from rfl) addr l
  rw [hstore, hlookup, if_pos rfl]
  exact ⟨_, rfl, rfl⟩

theorem Trips.averages (h : Trips data trips) (hlt : trips.length < 2 ^ 32) :
    Averages data trips := by
  have hdivisor := h.divisor hlt
  obtain ⟨latency, htavg, hbranch, hzero⟩ := h.tavg hlt
  refine ⟨?_, hdivisor, h.stopwatch.tsum, ?_⟩
  · intro hmax
    rw [UInt32.lt_iff_toNat_lt, hdivisor]
    exact List.length_pos_of_mem (h.stopwatch.least hmax)
  · intro l
    obtain ⟨e, he, rfl⟩ := lookup_finishStore l data.host latency data.loss
    refine ⟨_, if data.numRecv = 0 then 1 else 0, e, ?_, he, hbranch, hzero⟩
    rw [finish, finishRecord, htavg]
    rfl

/--
**The average latency is defined and lies between the extremes**, in every run with fewer than
2 ^ 32 accepted replies.
-/
theorem latency_averages [NetIpv6Addr] (cap : Nat) (count : UInt32) (queue : List Msg)
    (neighbours : List NeighborEntryl) (events : List MeasureEvent) (s : Measure)
    (trips : List UInt32)
    (hrun : run (withHistory (measureStep cap count) recordTrip) (.boot queue neighbours, []) events
      = some (s, trips))
    (hlt : trips.length < 2 ^ 32) : Averages s.data trips := by
  have htrips : trips.length < 2 ^ 32 → Trips s.data trips :=
    history_preserves (I := fun s trips => trips.length < 2 ^ 32 → Trips s.data trips)
      (fun _ _ _ _ h => trips_step h) (fun _ => trips_fresh 0) hrun
  exact (htrips hlt).averages hlt

attribute [local instance] gnrcIpv6Addr

/-- Two replies to the first ping, and one to the second that takes 71 minutes. -/
def delayedRun : List MeasureEvent :=
  .start smallConfig (linkLocal 1) smallSend :: smallEcho 1 0 ++ smallEcho 1 0 ++ smallTick
    ++ [.arrive (smallReply 1 1), .receive 0xfffffff0 smallSend]

theorem latency_averages_delayedRun :
    ∃ s, run (withHistory (measureStep 8 defaultCount) recordTrip) (.boot [] [], []) delayedRun
        = some (s, [0xfffffff0, 2000, 2000]) ∧
      Averages s.data [0xfffffff0, 2000, 2000] := by
  have hrun : ∃ x, run (withHistory (measureStep 8 defaultCount) recordTrip) (.boot [] [], [])
      delayedRun = some x ∧ x.2 = [0xfffffff0, 2000, 2000] := exists_run_of_any (by decide)
  obtain ⟨⟨s, trips⟩, hrun, rfl⟩ := hrun
  exact ⟨s, hrun, latency_averages 8 defaultCount [] [] delayedRun s _ hrun (by decide)⟩

end Dca
