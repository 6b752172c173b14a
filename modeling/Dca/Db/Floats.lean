import Dca.Db.Shown
import Dca.Db.Summary
import Dca.Lib.Rounding
import Mathlib.Data.Rat.Floor

/-!
# The `float` values

What the getters of `runtime.c` and `netif.c` compute with `float`, against the numbers that it stands
for. A `float` has 24 binary digits, and an operation gives the nearest one. Neither an overflow nor a
number below the smallest normal one comes up.
-/

namespace Dca

open CLib

/-- `float`: an operation gives a nearest number with 24 digits, between the smallest and the largest
normal power of 2. -/
abbrev RoundsFloat (rnd : Rat → Rat) : Prop := RoundsNearest 24 (1 / 2 ^ 126) (2 ^ 127) rnd

/-- What a `float` operation rounds. -/
abbrev FloatRange (x : Rat) : Prop := InRange (1 / 2 ^ 126) (2 ^ 127) x

/-! ## Casts -/

section Casts

@[simp] theorem truncRat_intCast (n : Int) : truncRat n = n := by simp [truncRat]

theorem truncRat_of_nonneg {x : Rat} (hx : 0 ≤ x) : truncRat x = ⌊x⌋ := by
  rw [truncRat, Int.tdiv_eq_ediv_of_nonneg (Rat.num_nonneg.mpr hx), Rat.floor_def']

theorem truncRat_neg (x : Rat) : truncRat (-x) = -truncRat x := by
  rw [truncRat, truncRat, Rat.num_neg_eq_neg_num, Rat.den_neg_eq_den, Int.neg_tdiv]

/-- A cast goes towards 0. -/
theorem truncRat_of_nonpos {x : Rat} (hx : x ≤ 0) : x ≤ truncRat x ∧ truncRat x ≤ 0 := by
  have hneg : truncRat (-x) = ⌊-x⌋ := truncRat_of_nonneg (by linarith)
  rw [truncRat_neg] at hneg
  have hfloor : (⌊-x⌋ : Rat) ≤ -x := Int.floor_le _
  have hnonneg : 0 ≤ ⌊-x⌋ := Int.floor_nonneg.mpr (by linarith)
  have hcast : -(truncRat x : Rat) = (⌊-x⌋ : Int) := by exact_mod_cast hneg
  exact ⟨by linarith, by omega⟩

theorem asInt32_of_lt {v : UInt32} (h : v.toNat < 2 ^ 31) : asInt32 v = v.toNat := by
  show v.toBitVec.toInt = v.toBitVec.toNat
  rw [BitVec.toInt_eq_toNat_of_lt]
  show 2 * v.toNat < 2 ^ 32
  omega

theorem asInt32_of_ge {v : UInt32} (h : 2 ^ 31 ≤ v.toNat) : asInt32 v = v.toNat - 2 ^ 32 := by
  show v.toBitVec.toInt = v.toBitVec.toNat - 2 ^ 32
  rw [BitVec.toInt_eq_toNat_cond, if_neg]
  · rfl
  · show ¬ 2 * v.toNat < 2 ^ 32
    omega

end Casts

/-! ## Rounded numbers -/

section Rounded

variable {rnd : Rat → Rat} {x : Rat} {n : Int}

theorem floatRange_of_le (hlow : 1 / 2 ^ 100 ≤ |x|) (hhigh : |x| ≤ 2 ^ 100) : FloatRange x :=
  Or.inr ⟨le_trans (by norm_num) hlow, le_trans hhigh (by norm_num)⟩

/-- The bounds as the values below have them: 0 comes up where a count is 0. -/
theorem floatRange_of_nonneg (hlow : x = 0 ∨ 1 / 2 ^ 100 ≤ x) (hhigh : x ≤ 2 ^ 100) :
    FloatRange x := by
  rcases hlow with hzero | hlow
  · exact Or.inl hzero
  · have hx : 0 ≤ x := le_trans (by norm_num) hlow
    exact floatRange_of_le (by rwa [abs_of_nonneg hx]) (by rwa [abs_of_nonneg hx])

theorem floatRange_intCast (hn : |n| ≤ 2 ^ 64) : FloatRange (n : Rat) := by
  rcases eq_or_ne n 0 with rfl | hne
  · exact Or.inl Int.cast_zero
  · have hone : (1 : Rat) ≤ |(n : Rat)| := by exact_mod_cast Int.one_le_abs hne
    have hhigh : |(n : Rat)| ≤ 2 ^ 64 := by exact_mod_cast hn
    exact floatRange_of_le (le_trans (by norm_num) hone) (le_trans hhigh (by norm_num))

theorem isFloat_zero : IsFloat 24 (0 : Rat) := by
  have h : IsFloat 24 ((0 : Nat) : Rat) := isFloat_natCast (by norm_num) (by norm_num)
  simpa using h

theorem RoundsFloat.error (h : RoundsFloat rnd) (hrange : FloatRange x) (hx : 0 ≤ x) :
    |rnd x - x| ≤ x / 2 ^ 24 := by
  have herror := h.abs_sub_le (by norm_num) hrange
  rwa [abs_of_nonneg hx] at herror

/-- An integer of 24 digits is a `float`. -/
theorem RoundsFloat.intCast (h : RoundsFloat rnd) (hn : |n| ≤ 2 ^ 24) : rnd n = n :=
  h.eq_self (floatRange_intCast (hn.trans (by norm_num))) (isFloat_intCast hn (by norm_num))

/-- The integer part of a number without a positive part is rounded to another one. -/
theorem RoundsFloat.truncRat_nonpos (h : RoundsFloat rnd) (hx : x ≤ 0) (hlow : -2 ^ 64 ≤ x) :
    rnd (truncRat x) ≤ 0 := by
  obtain ⟨hle, hnonpos⟩ := truncRat_of_nonpos hx
  have hlow' : (-2 ^ 64 : Int) ≤ truncRat x := by exact_mod_cast hlow.trans hle
  refine h.le_of_le (floatRange_intCast ?_) isFloat_zero (by exact_mod_cast hnonpos)
  rw [abs_of_nonpos hnonpos]
  omega

end Rounded

/-! ## What is shown of a measurement -/

/-- The results of a measurement. -/
inductive QosResult where
  | latency | packetLoss | throughput

/-- The value of `_netif_sub_field_count` for a result. -/
def QosResult.subFieldCount : QosResult → UInt8
  | .latency => 2
  | .packetLoss => 3
  | .throughput => 4

/-- What is stored of a result. -/
def QosResult.stored : QosResult → NeighborEntryl → UInt32
  | .latency, e => e.latency
  | .packetLoss, e => e.packetLoss
  | .throughput, e => e.throughput

/-- What the stored number is divided by. A latency is stored as the time of a round trip in
microseconds and shown for one way in milliseconds. -/
def QosResult.unit : QosResult → Nat
  | .latency => 2000
  | .packetLoss | .throughput => 1

/-- A number and what is shown of it in a unit. -/
structure ShownIn (unit : Nat) (stored : UInt32) (shown : Rat) : Prop where
  exact : stored.toNat < 2 ^ 24 → shown = (stored.toNat / unit : Nat)
  -- the next `float` can be `2 ^ 31`, and no `int32_t` holds that
  close : stored.toNat < 2 ^ 31 - 64 →
    |shown - stored.toNat / unit| ≤ stored.toNat / unit / 2 ^ 22 + 1
  nonpos : 2 ^ 31 ≤ stored.toNat → shown ≤ 0

section Shown

variable {env : Env} {v : UInt32}

/-- The number as an `int32_t`, rounded. -/
theorem RoundsFloat.asInt32_bounds (h : RoundsFloat env.round) :
    (v.toNat < 2 ^ 31 → |env.round (asInt32 v) - v.toNat| ≤ v.toNat / 2 ^ 24 ∧
      0 ≤ env.round (asInt32 v) ∧ env.round (asInt32 v) ≤ 2 ^ 31) ∧
    (2 ^ 31 ≤ v.toNat → -2 ^ 31 ≤ env.round (asInt32 v) ∧ env.round (asInt32 v) ≤ -1) := by
  have hlt : v.toNat < 2 ^ 32 := v.toNat_lt
  constructor
  · intro hv
    have hv' : (v.toNat : Rat) ≤ 2 ^ 31 := by exact_mod_cast hv.le
    have hrange : FloatRange ((v.toNat : Int) : Rat) :=
      floatRange_intCast (by rw [Nat.abs_cast]; omega)
    have herror := h.error hrange (by positivity)
    have hge := h.ge_of_ge hrange isFloat_zero (by positivity)
    have hle := h.le_of_le hrange (y := 2 ^ 31) ⟨1, 31, by norm_num, by norm_num⟩ (by simpa using hv')
    rw [asInt32_of_lt hv]
    rw [Int.cast_natCast] at herror hge hle ⊢
    exact ⟨herror, hge, hle⟩
  · intro hv
    have hlow : (-2 ^ 31 : Int) ≤ asInt32 v := by rw [asInt32_of_ge hv]; omega
    have hhigh : asInt32 v ≤ -1 := by rw [asInt32_of_ge hv]; omega
    have hrange : FloatRange (asInt32 v : Rat) :=
      floatRange_intCast (by rw [abs_of_neg (by omega)]; omega)
    exact ⟨h.ge_of_ge hrange (y := -2 ^ 31) ⟨-1, 31, by norm_num, by norm_num⟩
        (by exact_mod_cast hlow),
      h.le_of_le hrange (y := -1) ⟨-1, 0, by norm_num, by norm_num⟩ (by exact_mod_cast hhigh)⟩

theorem RoundsFloat.number_exact (h : RoundsFloat env.round) (hv : v.toNat < 2 ^ 24) :
    env.round (truncRat (env.round (asInt32 v))) = v.toNat := by
  have hv' : |(v.toNat : Int)| ≤ 2 ^ 24 := by
    rw [Nat.abs_cast]
    omega
  rw [asInt32_of_lt (by omega), h.intCast hv', truncRat_intCast, h.intCast hv', Int.cast_natCast]

/-- From `2 ^ 24` on a `float` is an integer, and the casts leave it alone. -/
theorem RoundsFloat.number_eq (h : RoundsFloat env.round) (hlow : 2 ^ 24 ≤ v.toNat)
    (hhigh : v.toNat < 2 ^ 31) :
    env.round (truncRat (env.round (asInt32 v))) = env.round (asInt32 v) := by
  obtain ⟨-, hnonneg, hle⟩ := h.asInt32_bounds.1 hhigh
  have hrange : FloatRange (asInt32 v : Rat) := by
    refine floatRange_intCast ?_
    rw [asInt32_of_lt hhigh, Nat.abs_cast]
    omega
  have hbig : 2 ^ 24 ≤ env.round (asInt32 v) := by
    refine h.ge_of_ge hrange ⟨1, 24, by norm_num, by norm_num⟩ ?_
    rw [asInt32_of_lt hhigh, Int.cast_natCast]
    exact_mod_cast hlow
  have hfloat := h.isFloat _ hrange
  generalize env.round (asInt32 v) = a at hnonneg hle hbig hfloat ⊢
  obtain ⟨n, rfl⟩ := hfloat.exists_int (by rwa [abs_of_nonneg hnonneg])
  rw [truncRat_intCast]
  exact h.eq_self (floatRange_of_nonneg (Or.inr (le_trans (by norm_num) hbig))
    (hle.trans (by norm_num))) hfloat

theorem shownNumber_eq (h : RoundsFloat env.round) (v : UInt32) :
    ∃ x : Rat, shownNumber env v = some x ∧ ShownIn 1 v x := by
  refine ⟨_, rfl, ?_, ?_, ?_⟩
  · intro hv
    rw [h.number_exact hv, Nat.div_one]
  · intro hint
    have hv : v.toNat < 2 ^ 31 := Nat.lt_of_lt_of_le hint (Nat.sub_le _ _)
    rw [Nat.cast_one, div_one]
    rcases Nat.lt_or_ge v.toNat (2 ^ 24) with hlt | hge
    · rw [h.number_exact hlt, sub_self, abs_zero]
      positivity
    · rw [h.number_eq hge hv]
      have hv0 : (0 : Rat) ≤ v.toNat := Nat.cast_nonneg _
      calc |env.round (asInt32 v) - v.toNat| ≤ v.toNat / 2 ^ 24 := (h.asInt32_bounds.1 hv).1
        _ ≤ v.toNat / 2 ^ 22 + 1 := by linarith
  · intro hv
    obtain ⟨hlow, hhigh⟩ := h.asInt32_bounds.2 hv
    exact h.truncRat_nonpos (by linarith) (le_trans (by norm_num) hlow)

/-- The whole milliseconds of one way. -/
theorem RoundsFloat.latency_exact (h : RoundsFloat env.round) (hv : v.toNat < 2 ^ 24) :
    env.round (truncRat (env.floatDiv (asInt32 v) 2000)) = (v.toNat / 2000 : Nat) := by
  have hv' : |(v.toNat : Int)| ≤ 2 ^ 24 := by
    rw [Nat.abs_cast]
    omega
  rw [Env.floatDiv, asInt32_of_lt (by omega), h.intCast hv', Int.cast_natCast]
  have hrange : FloatRange ((v.toNat : Rat) / (2000 : Nat)) := by
    have hle : (v.toNat : Rat) ≤ 2 ^ 24 := by exact_mod_cast hv.le
    refine floatRange_of_nonneg ?_
      ((div_le_div_of_nonneg_right hle (Nat.cast_nonneg 2000)).trans (by norm_num))
    rcases Nat.eq_zero_or_pos v.toNat with hzero | hpos
    · exact Or.inl (by rw [hzero]; simp)
    · have hone : (1 : Rat) ≤ v.toNat := by exact_mod_cast hpos
      exact Or.inr
        (le_trans (by norm_num) (div_le_div_of_nonneg_right hone (Nat.cast_nonneg 2000)))
  -- up to 2 ^ 14 milliseconds the next smaller `float` is nearer than the next millisecond
  have hfloor := h.floor_div (k := 14) (by norm_num) (by norm_num) (by omega) (by norm_num) hrange
  have hnonneg := h.ge_of_ge hrange isFloat_zero (by positivity)
  rw [truncRat_of_nonneg hnonneg, hfloor, h.intCast (by rw [Nat.abs_cast]; omega),
    Int.cast_natCast]

/-- The quotient is below `2 ^ 21`, so that its integer part is a `float`. -/
theorem RoundsFloat.latency_close (h : RoundsFloat env.round) (hv : v.toNat < 2 ^ 31) :
    |env.round (truncRat (env.floatDiv (asInt32 v) 2000)) - v.toNat / (2000 : Nat)|
      ≤ v.toNat / (2000 : Nat) / 2 ^ 22 + 1 := by
  obtain ⟨herror, hnonneg, hle⟩ := h.asInt32_bounds.1 hv
  rw [Env.floatDiv]
  generalize env.round (asInt32 v) = a at herror hnonneg hle ⊢
  obtain ⟨hlow, hhigh⟩ := abs_le.mp herror
  have hrange : FloatRange (a / (2000 : Nat)) := by
    push_cast
    refine floatRange_of_nonneg ?_ (by linarith)
    rcases Nat.eq_zero_or_pos v.toNat with hzero | hpos
    · left
      have ha : a = 0 := by
        rw [hzero, Nat.cast_zero] at hhigh
        linarith
      rw [ha, zero_div]
    · right
      have hone : (1 : Rat) ≤ v.toNat := by exact_mod_cast hpos
      norm_num
      linarith
  have hquot := h.error hrange (by positivity)
  have hq := h.ge_of_ge hrange isFloat_zero (by positivity)
  have hq' : env.round (a / (2000 : Nat)) ≤ 2 ^ 21 := by
    refine h.le_of_le hrange ⟨1, 21, by norm_num, by norm_num⟩ ?_
    push_cast
    linarith
  rw [truncRat_of_nonneg hq]
  push_cast at hquot hq hq' ⊢
  generalize env.round (a / 2000) = q at hquot hq hq' ⊢
  obtain ⟨hlow', hhigh'⟩ := abs_le.mp hquot
  have hfloor : (⌊q⌋ : Rat) ≤ q := Int.floor_le q
  have hfloor' : q < ⌊q⌋ + 1 := Int.lt_floor_add_one q
  have hint : env.round ⌊q⌋ = ⌊q⌋ := by
    refine h.intCast ?_
    rw [abs_of_nonneg (Int.floor_nonneg.mpr hq)]
    have hcast : (⌊q⌋ : Rat) ≤ (2 ^ 24 : Int) := by
      push_cast
      linarith
    exact_mod_cast hcast
  rw [hint, abs_le]
  constructor
  · linarith
  · linarith

theorem RoundsFloat.latency_nonpos (h : RoundsFloat env.round) (hv : 2 ^ 31 ≤ v.toNat) :
    env.round (truncRat (env.floatDiv (asInt32 v) 2000)) ≤ 0 := by
  obtain ⟨hlow, hhigh⟩ := h.asInt32_bounds.2 hv
  rw [Env.floatDiv]
  generalize env.round (asInt32 v) = a at hlow hhigh ⊢
  have hrange : FloatRange (a / (2000 : Nat)) := by
    push_cast
    refine floatRange_of_le ?_ ?_
    · rw [abs_of_nonpos (by linarith)]
      norm_num
      linarith
    · rw [abs_of_nonpos (by linarith)]
      linarith
  have hquot : env.round (a / (2000 : Nat)) ≤ 0 := by
    refine h.le_of_le hrange isFloat_zero ?_
    push_cast
    linarith
  have hquot' : -2 ^ 31 ≤ env.round (a / (2000 : Nat)) := by
    refine h.ge_of_ge hrange ⟨-1, 31, by norm_num, by norm_num⟩ ?_
    push_cast
    linarith
  exact h.truncRat_nonpos hquot (le_trans (by norm_num) hquot')

theorem shownLatency_eq (h : RoundsFloat env.round) (v : UInt32) :
    ∃ x : Rat, shownLatency env v = some x ∧ ShownIn 2000 v x :=
  ⟨_, rfl, h.latency_exact, fun hv => h.latency_close (Nat.lt_of_lt_of_le hv (Nat.sub_le _ _)),
    h.latency_nonpos⟩

theorem QosResult.shown_eq (h : RoundsFloat env.round) (r : QosResult) {g : Globals}
    (hsub : g.netifSubFieldCount = r.subFieldCount) {e : NeighborEntryl}
    (he : entryAt g.neighbours g.numNeighbours = some e) (i : Nat) :
    ∃ x : Rat, netifNodeGetfloatValue env g (some i) = .ok (some x) ∧
      ShownIn r.unit (r.stored e) x := by
  have hread : ∀ sub, readSubField g.neighbours sub g.numNeighbours = .ok (e.subField sub) :=
    readSubField_eq he
  cases r with
  | latency =>
    have hvalue : netifNodeGetfloatValue env g (some i) = .ok (shownLatency env e.latency) := by
      simp [netifNodeGetfloatValue, netifGetLatency, hread, hsub, QosResult.subFieldCount]
      rfl
    rw [hvalue]
    obtain ⟨x, hx, hshown⟩ := shownLatency_eq h e.latency
    exact ⟨x, congrArg Except.ok hx, hshown⟩
  | packetLoss =>
    have hvalue : netifNodeGetfloatValue env g (some i) = .ok (shownNumber env e.packetLoss) := by
      simp [netifNodeGetfloatValue, netifGetPacketloss, hread, hsub, QosResult.subFieldCount]
      rfl
    rw [hvalue]
    obtain ⟨x, hx, hshown⟩ := shownNumber_eq h e.packetLoss
    exact ⟨x, congrArg Except.ok hx, hshown⟩
  | throughput =>
    have hvalue : netifNodeGetfloatValue env g (some i) = .ok (shownNumber env e.throughput) := by
      simp [netifNodeGetfloatValue, netifGetThroughput, netifGetPacketloss, hread, hsub,
        QosResult.subFieldCount]
      rfl
    rw [hvalue]
    obtain ⟨x, hx, hshown⟩ := shownNumber_eq h e.throughput
    exact ⟨x, congrArg Except.ok hx, hshown⟩

end Shown

/--
**The values below a neighbour are its last results**, after any sequence of discoveries and results. A
number below `2 ^ 24` is shown exactly, and a latency in whole milliseconds. Little is lost as long as the
number is an `int32_t`, also when it is rounded. From `2 ^ 31` on nothing positive is shown.
-/
theorem results_shown (db : Db) (hfloat : RoundsFloat db.env.round) (ops : List StatOp) {g : Globals}
    (hlist : g.neighbours = ops.foldl StatOp.apply []) (hlast : g.netifFieldCount = 4)
    (r : QosResult) (hsub : g.netifSubFieldCount = r.subFieldCount) {e : NeighborEntryl}
    (he : entryAt g.neighbours g.numNeighbours = some e) (i : Nat) :
    ∃ x : Rat, dbNodeGetFloatValue db g (.netif (some i) .qos) = .ok (some x) ∧
      ShownIn r.unit (r.stored (lastResults ops e.addr)) x := by
  have hstore : StoreOf ops g.neighbours := by
    have hmalloc : ∀ m : Mem,
        ((fun _ => some ⟨unmeasured 0, none⟩ : Mem → Option NeighborCell) m).isSome := fun _ => rfl
    obtain ⟨-, l, -, -, hs, rfl, -⟩ := runOps_storeOf hmalloc ops Mem.holds_empty storeOf_nil
    rwa [hlist]
  have hmem : e ∈ g.neighbours := List.mem_of_getElem? he
  have htype : dbNodeGetType db g (.netif (some i) .qos) = .ok .float := by
    cases r <;> simp [dbNodeGetType, netifNodeGettype, hlast, hsub, QosResult.subFieldCount]
  obtain ⟨x, hx, hshown⟩ := r.shown_eq hfloat hsub he i
  rw [← hstore.eq_lastResults hmem]
  refine ⟨x, ?_, hshown⟩
  rw [dbNodeGetFloatValue, htype]
  exact hx

/-- A round trip of 4999 microseconds is shown as 2 milliseconds. -/
theorem results_shown_small :
    ∃ x : Rat, dbNodeGetFloatValue ⟨{ smallEnv with round := nearestFloat 24 }, []⟩
        { netifFieldCount := 4, netifSubFieldCount := 2, numNeighbours := 1,
          neighbours := [⟨linkLocal 1, 4999, 0, 0⟩] } (.netif (some 0) .qos) = .ok (some x) ∧
      ShownIn 2000 4999 x :=
  results_shown ⟨{ smallEnv with round := nearestFloat 24 }, []⟩
    (roundsNearest_nearestFloat (by decide) _ _)
    [.discover (linkLocal 1), .latency (linkLocal 1) 4999 0]
    (g := { netifFieldCount := 4, netifSubFieldCount := 2, numNeighbours := 1,
            neighbours := [⟨linkLocal 1, 4999, 0, 0⟩] })
    (by decide) rfl .latency rfl (e := ⟨linkLocal 1, 4999, 0, 0⟩) rfl 0

/-! ## The CPU utilisation -/

section Ticks

variable (env : Env)

/-- The thread in the slot is called `idle`. -/
def Env.isIdle (pid : Nat) : Bool := (env.schedThreads pid).any fun p => p.name = .lit "idle"

/-- The ticks of all live threads. -/
def Env.totalTicks : Nat := ((env.pidsFrom kernelPidFirst).map env.runtimeTicks).sum

/-- The ticks of the last live thread that is called `idle`. -/
def Env.idleTicks : Nat :=
  (((env.pidsFrom kernelPidFirst).filter env.isIdle).map env.runtimeTicks).getLastD 0

/-- The loop over the slots, from what it has counted before. -/
theorem foldl_ticks (pids : List Nat) (idle sum : Nat) :
    pids.foldl (fun acc i => match env.schedThreads i with
        | some p => (if p.name = .lit "idle" then env.runtimeTicks i else acc.1,
            acc.2 + env.runtimeTicks i)
        | none => acc) (idle, sum)
      = ((((pids.filter fun p => (env.schedThreads p).isSome).filter env.isIdle).map
            env.runtimeTicks).getLastD idle,
          sum + ((pids.filter fun p => (env.schedThreads p).isSome).map env.runtimeTicks).sum) := by
  induction pids generalizing idle sum with
  | nil => simp
  | cons pid pids ih =>
    rw [List.foldl_cons]
    cases hslot : env.schedThreads pid with
    | none =>
      rw [List.filter_cons_of_neg (by simp [hslot])]
      exact ih idle sum
    | some p =>
      rw [List.filter_cons_of_pos (by simp [hslot]), List.map_cons, List.sum_cons, ih,
        Nat.add_assoc]
      by_cases hidle : p.name = .lit "idle"
      · rw [if_pos hidle, List.filter_cons_of_pos (by simp [Env.isIdle, hslot, hidle]),
          List.map_cons, List.getLastD_cons]
      · rw [if_neg hidle, List.filter_cons_of_neg (by simp [Env.isIdle, hslot, hidle])]

variable {env}

theorem runtimeTicks_eq : runtimeTicks env = (env.idleTicks, env.totalTicks) := by
  have h := foldl_ticks env (List.range' kernelPidFirst env.kernelPidLast) 0 0
  rw [Nat.zero_add] at h
  exact h

theorem idleTicks_le : env.idleTicks ≤ env.totalTicks := by
  rw [Env.idleTicks, Env.totalTicks]
  generalize env.pidsFrom kernelPidFirst = pids
  have hsub : (((pids.filter env.isIdle).map env.runtimeTicks).sum)
      ≤ (pids.map env.runtimeTicks).sum :=
    (List.filter_sublist.map env.runtimeTicks).sum_le_sum (by simp)
  refine Nat.le_trans ?_ hsub
  generalize (pids.filter env.isIdle).map env.runtimeTicks = ticks
  rcases ticks.eq_nil_or_concat with rfl | ⟨l, a, rfl⟩
  · simp
  · simp

end Ticks

section Percent

variable {rnd : Rat → Rat}

/-- A quotient of tick counts keeps between 0 and 1, and loses little. -/
theorem RoundsFloat.quotient (h : RoundsFloat rnd) {t s : Nat} (hts : t ≤ s) (hs : 0 < s)
    (hlt : s < 2 ^ 64) :
    IsFloat 24 (rnd (rnd t / rnd s)) ∧ 0 ≤ rnd (rnd t / rnd s) ∧ rnd (rnd t / rnd s) ≤ 1 ∧
      |rnd (rnd t / rnd s) - t / s| ≤ 4 / 2 ^ 24 := by
  have hrange : ∀ n : Nat, n ≤ s → FloatRange (n : Rat) := by
    intro n hn
    have hint : FloatRange ((n : Int) : Rat) := floatRange_intCast (by rw [Nat.abs_cast]; omega)
    rwa [Int.cast_natCast] at hint
  have hone : IsFloat 24 (1 : Rat) := ⟨1, 0, by norm_num, by norm_num⟩
  have hs' : (0 : Rat) < s := by exact_mod_cast hs
  have hts' : (t : Rat) ≤ s := by exact_mod_cast hts
  have ht' : (0 : Rat) ≤ t := Nat.cast_nonneg t
  have ha := h.error (hrange t hts) ht'
  have hb := h.error (hrange s le_rfl) hs'.le
  have hab := h.mono (hrange t hts) (hrange s le_rfl) hts'
  have ha0 := h.ge_of_ge (hrange t hts) isFloat_zero ht'
  have hb1 : 1 ≤ rnd s := h.ge_of_ge (hrange s le_rfl) hone (by exact_mod_cast hs)
  have hb64 : rnd s ≤ 2 ^ 64 :=
    h.le_of_le (hrange s le_rfl) ⟨1, 64, by norm_num, by norm_num⟩ (by exact_mod_cast hlt.le)
  have ha1 : rnd t = 0 ∨ 1 ≤ rnd t := by
    rcases Nat.eq_zero_or_pos t with rfl | hpos
    · exact Or.inl (h.eq_self (Or.inl Nat.cast_zero) (by simpa using isFloat_zero))
    · exact Or.inr (h.ge_of_ge (hrange t hts) hone (by exact_mod_cast hpos))
  generalize rnd t = a at ha hab ha0 ha1 ⊢
  generalize rnd s = b at hb hab hb1 hb64 ⊢
  have hbpos : 0 < b := by linarith
  have hdiv0 : 0 ≤ a / b := div_nonneg ha0 hbpos.le
  have hdiv1 : a / b ≤ 1 := (div_le_one hbpos).mpr hab
  have hdiv : FloatRange (a / b) := by
    refine floatRange_of_nonneg ?_ (hdiv1.trans (by norm_num))
    rcases ha1 with rfl | ha1
    · exact Or.inl (zero_div b)
    · right
      calc (1 : Rat) / 2 ^ 100 ≤ 1 / 2 ^ 64 := by norm_num
        _ ≤ a / b := div_le_div₀ ha0 ha1 hbpos hb64
  have hratio : (t / s : Rat) ≤ 1 := (div_le_one hs').mpr hts'
  have herror := abs_div_sub_div_le ht' hs' (by norm_num) ha hb
  have hq := h.error hdiv hdiv0
  refine ⟨h.isFloat _ hdiv, h.ge_of_ge hdiv isFloat_zero hdiv0, h.le_of_le hdiv hone hdiv1, ?_⟩
  have htri := abs_sub_le (rnd (a / b)) (a / b) (t / s)
  linarith

/-- The other part of a whole in percent. -/
theorem RoundsFloat.percent (h : RoundsFloat rnd) {q : Rat} (hq : IsFloat 24 q) (hq0 : 0 ≤ q)
    (hq1 : q ≤ 1) :
    0 ≤ rnd (rnd (1 - q) * 100) ∧ rnd (rnd (1 - q) * 100) ≤ 100 ∧
      |rnd (rnd (1 - q) * 100) - 100 * (1 - q)| ≤ 200 / 2 ^ 24 := by
  have hdiff : 1 - q = 0 ∨ 1 / 2 ^ 25 ≤ 1 - q := by
    rcases hq1.eq_or_lt with rfl | hlt
    · exact Or.inl (sub_self 1)
    · have hle := hq.le_one_sub hlt
      exact Or.inr (by linarith)
  have hrange : FloatRange (1 - q) :=
    floatRange_of_nonneg (hdiff.imp_right (le_trans (by norm_num))) (by linarith)
  have hd := h.error hrange (by linarith)
  have hd0 := h.ge_of_ge hrange isFloat_zero (by linarith)
  have hd1 : rnd (1 - q) ≤ 1 :=
    h.le_of_le hrange ⟨1, 0, by norm_num, by norm_num⟩ (by linarith)
  have hdlow : rnd (1 - q) = 0 ∨ 1 / 2 ^ 25 ≤ rnd (1 - q) := by
    rcases hdiff with hzero | hge
    · rw [hzero]
      exact Or.inl (h.eq_self (Or.inl rfl) isFloat_zero)
    · exact Or.inr (h.ge_of_ge hrange ⟨1, -25, by norm_num, by norm_num⟩ hge)
  generalize rnd (1 - q) = d at hd hd0 hd1 hdlow ⊢
  have hrange' : FloatRange (d * 100) := by
    refine floatRange_of_nonneg ?_ (by linarith)
    rcases hdlow with rfl | hge
    · exact Or.inl (zero_mul 100)
    · exact Or.inr (by linarith)
  have hu := h.error hrange' (by linarith)
  refine ⟨h.ge_of_ge hrange' isFloat_zero (by linarith),
    h.le_of_le hrange' ⟨100, 0, by norm_num, by norm_num⟩ (by linarith), ?_⟩
  generalize rnd (d * 100) = u at hu ⊢
  obtain ⟨hd₁, hd₂⟩ := abs_le.mp hd
  obtain ⟨hu₁, hu₂⟩ := abs_le.mp hu
  rw [abs_le]
  constructor
  · linarith
  · linarith

/-- `(1 - idle / sum) * 100` of two tick counts. -/
theorem RoundsFloat.util (h : RoundsFloat rnd) {t s : Nat} (hts : t ≤ s) (hs : 0 < s)
    (hlt : s < 2 ^ 64) {util : Rat}
    (hutil : util = rnd (rnd (1 - rnd (rnd t / rnd s)) * 100)) :
    0 ≤ util ∧ util ≤ 100 ∧ |util - 100 * (1 - t / s)| ≤ 1 / 20000 := by
  obtain ⟨hdigits, hq0, hq1, hquotient⟩ := h.quotient hts hs hlt
  obtain ⟨hutil0, hutil1, hpercent⟩ := h.percent hdigits hq0 hq1
  rw [← hutil] at hutil0 hutil1 hpercent
  refine ⟨hutil0, hutil1, ?_⟩
  generalize rnd (rnd t / rnd s) = q at hquotient hpercent
  obtain ⟨hq₁, hq₂⟩ := abs_le.mp hquotient
  obtain ⟨hu₁, hu₂⟩ := abs_le.mp hpercent
  rw [abs_le]
  constructor
  · linarith
  · linarith

end Percent

theorem static_float {db : Db} {flIdx subIdx : UInt8} {e : DbFlEntry} {s : DbFlStaticEntry}
    (he : db.dbIndex[flIdx.toNat]? = some e) (hs : e.staticEntries[subIdx.toNat]? = some s)
    (htype : s.type = .float) {f : Env → CFloat} (hf : s.getValueFn = .float f) (g : Globals) :
    dbNodeGetFloatValue db g (.fl flIdx subIdx false) = .ok (f db.env) := by
  simp only [dbNodeGetFloatValue, static_type he hs, htype, ok_bind, decide_true, assert_true,
    flNodeGetfloatValue, flEntry_eq he, staticEntry_eq hs, hf, pure_eq_ok]

/--
**The CPU utilisation is a percentage of the ticks**, as long as these do not exceed 64 bits: what
`/runtime/cpu_util` shows is no number exactly if no live thread has run. Otherwise it lies between 0
and 100 and is right to four digits behind the point, whichever of two nearest numbers is taken.
-/
theorem cpu_util_percent (cfg : Config) (env : Env) :
    ∃ node, FoundBy (.ofEnv cfg env) [(CString.lit "runtime").chars, (CString.lit "cpu_util").chars]
        node ∧
      (∀ g, dbNodeGetFloatValue (.ofEnv cfg env) g node = .ok (runtimeGetCpuUtil env)) ∧
      (env.totalTicks < 2 ^ 64 →
        (runtimeGetCpuUtil env = none ↔ env.totalTicks = 0) ∧
        (RoundsFloat env.round → ∀ util, runtimeGetCpuUtil env = some util → 0 ≤ util ∧ util ≤ 100 ∧
          |util - 100 * (1 - env.idleTicks / env.totalTicks)| ≤ 1 / 20000)) := by
  have he : (dbIndex cfg)[1]? = some (runtimeEntry cfg) := rfl
  have hs : (runtimeEntry cfg).staticEntries[1]?
      = some ⟨tableName "cpu_util", .float, .float runtimeGetCpuUtil⟩ := rfl
  have hfound := (pathTable_ofEnv cfg env).foundBy_entry he hs (by simp [runtimeEntry])
  refine ⟨_, hfound, fun g => static_float he hs rfl rfl g, fun hticks => ?_⟩
  rw [runtimeGetCpuUtil, runtimeTicks_eq]
  by_cases hzero : env.totalTicks = 0
  · simp [hzero]
  · simp only [hzero, if_false]
    refine ⟨by simp, fun hfloat util hutil => ?_⟩
    exact hfloat.util idleTicks_le (Nat.pos_of_ne_zero hzero) hticks (Option.some.inj hutil).symm

/-- Two threads that have run for one tick each, and one of them is `idle`. -/
theorem cpu_util_percent_small :
    ∃ util, runtimeGetCpuUtil { smallEnv with round := nearestFloat 24 } = some util ∧
      0 ≤ util ∧ util ≤ 100 ∧ |util - 50| ≤ 1 / 20000 := by
  have hidle : Env.idleTicks { smallEnv with round := nearestFloat 24 } = 1 := by decide
  have htotal : Env.totalTicks { smallEnv with round := nearestFloat 24 } = 2 := by decide
  obtain ⟨-, -, -, hpercent⟩ := cpu_util_percent {} { smallEnv with round := nearestFloat 24 }
  obtain ⟨hnone, hutil⟩ := hpercent (by rw [htotal]; decide)
  rw [htotal] at hnone
  obtain ⟨util, hsome⟩ := Option.ne_none_iff_exists'.mp (mt hnone.mp two_ne_zero)
  obtain ⟨hlow, hhigh, herror⟩ :=
    hutil (roundsNearest_nearestFloat (by decide) _ _) util hsome
  rw [hidle, htotal] at herror
  refine ⟨util, hsome, hlow, hhigh, le_trans (le_of_eq ?_) herror⟩
  norm_num

end Dca
