import Dca.Neighbour.LinkedList

/-!
# The neighbour statistics as a map

Three clients in three files write to the neighbour list: the discovery of neighbours, the end of
a ping run and the end of a round of throughput measurement. Each of them looks for the address,
updates its own fields of the entry or inserts a record with zeros in the others. Over any run
of the three the links stand for the map of the last results.
-/

namespace Dca

open CLib

/-- An operation on the neighbour statistics. -/
inductive StatOp where
  /-- `_netif_node_add_list` -/
  | discover (addr : Ipv6Addr)
  /-- The store step of `_finish`. -/
  | latency (addr : Ipv6Addr) (latency packetLoss : UInt32)
  /-- The store step of `db_measure_network_throughput`. -/
  | throughput (addr : Ipv6Addr) (throughput : UInt32)
  deriving DecidableEq

namespace StatOp

def addr : StatOp → Ipv6Addr
  | discover a => a
  | latency a _ _ => a
  | throughput a _ => a

/-- The operation on the links. -/
def exec (junk : Option NeighborCell) (m : Mem) : StatOp → Res Mem
  | discover a => m.netifNodeAddList junk a
  | latency a lat loss =>
    m.finishStore junk { addr := a, latency := lat, packetLoss := loss, throughput := 0 }
  | throughput a thr =>
    m.throughputStore junk { addr := a, latency := 0, packetLoss := 0, throughput := thr }

/-- The operation on the list behind the links. -/
def apply (l : List NeighborEntryl) : StatOp → List NeighborEntryl
  | discover a => netifNodeAddList l a
  | latency a lat loss =>
    finishStore l { addr := a, latency := lat, packetLoss := loss, throughput := 0 }
  | throughput a thr =>
    throughputStore l { addr := a, latency := 0, packetLoss := 0, throughput := thr }

/-- What the operation writes into the entry of its address. -/
def write : StatOp → NeighborEntryl → NeighborEntryl
  | discover _, e => e
  | latency _ lat loss, e => { e with latency := lat, packetLoss := loss }
  | throughput _ thr, e => { e with throughput := thr }

@[simp] theorem addr_write (op : StatOp) (e : NeighborEntryl) : (op.write e).addr = e.addr := by
  cases op <;> rfl

end StatOp

/-- The record that is inserted for an address without results. -/
def unmeasured (a : Ipv6Addr) : NeighborEntryl :=
  { addr := a, latency := 0, packetLoss := 0, throughput := 0 }

namespace StatOp

/-- The latency result of the operation, if it is one for this address. -/
def latencyFor (a : Ipv6Addr) : StatOp → Option (UInt32 × UInt32)
  | latency b lat loss => if b = a then some (lat, loss) else none
  | _ => none

/-- The throughput result of the operation, if it is one for this address. -/
def throughputFor (a : Ipv6Addr) : StatOp → Option UInt32
  | throughput b thr => if b = a then some thr else none
  | _ => none

end StatOp

/-- A run of the operations. `junk` is what the blocks of `malloc` hold, where there is one. -/
def runOps (junk : Mem → Option NeighborCell) (m : Mem) (ops : List StatOp) : Res Mem :=
  ops.foldlM (fun m op => op.exec (junk m) m) m

/-! ## The map of the last results -/

/-- Latency and packet loss of the last latency result for an address. -/
def lastLatency (ops : List StatOp) (a : Ipv6Addr) : UInt32 × UInt32 :=
  (ops.filterMap (StatOp.latencyFor a)).getLastD (0, 0)

/-- The last throughput result for an address. -/
def lastThroughput (ops : List StatOp) (a : Ipv6Addr) : UInt32 :=
  (ops.filterMap (StatOp.throughputFor a)).getLastD 0

/-- The entry that an address should have. -/
def lastResults (ops : List StatOp) (a : Ipv6Addr) : NeighborEntryl :=
  { addr := a, latency := (lastLatency ops a).1, packetLoss := (lastLatency ops a).2,
    throughput := lastThroughput ops a }

/-- The list holds each address that the operations mention once, with its last results. -/
structure StoreOf (ops : List StatOp) (l : List NeighborEntryl) : Prop where
  nodup : (l.map NeighborEntryl.addr).Nodup
  mentioned : ∀ a, a ∈ l.map NeighborEntryl.addr ↔ a ∈ ops.map StatOp.addr
  latency : ∀ e ∈ l, (e.latency, e.packetLoss) = lastLatency ops e.addr
  throughput : ∀ e ∈ l, e.throughput = lastThroughput ops e.addr

theorem lastResults_concat (ops : List StatOp) (op : StatOp) :
    lastResults (ops ++ [op]) op.addr = op.write (lastResults ops op.addr) := by
  unfold lastResults lastLatency lastThroughput
  rw [List.filterMap_append, List.filterMap_append]
  cases op <;> simp [StatOp.addr, StatOp.write, StatOp.latencyFor, StatOp.throughputFor]

theorem lastResults_concat_ne (ops : List StatOp) {op : StatOp} {a : Ipv6Addr} (h : a ≠ op.addr) :
    lastResults (ops ++ [op]) a = lastResults ops a := by
  have hne : op.addr ≠ a := fun heq => h heq.symm
  unfold lastResults lastLatency lastThroughput
  rw [List.filterMap_append, List.filterMap_append]
  cases op <;> simp_all [StatOp.addr, StatOp.latencyFor, StatOp.throughputFor]

/-- The results of an address that nobody has mentioned are zero. -/
theorem lastResults_of_not_mem {ops : List StatOp} {a : Ipv6Addr} (h : a ∉ ops.map StatOp.addr) :
    lastResults ops a = unmeasured a := by
  have hne : ∀ op ∈ ops, op.addr ≠ a := fun op hop heq => h (heq ▸ List.mem_map_of_mem hop)
  have hlat : ops.filterMap (StatOp.latencyFor a) = [] := by
    refine List.filterMap_eq_nil_iff.mpr fun op hop => ?_
    have := hne op hop
    cases op <;> simp_all [StatOp.latencyFor, StatOp.addr]
  have hthr : ops.filterMap (StatOp.throughputFor a) = [] := by
    refine List.filterMap_eq_nil_iff.mpr fun op hop => ?_
    have := hne op hop
    cases op <;> simp_all [StatOp.throughputFor, StatOp.addr]
  rw [lastResults, lastLatency, lastThroughput, hlat, hthr]
  rfl

/-! ## One step -/

variable {l : List NeighborEntryl} {ops : List StatOp}

theorem hasAddr_iff_mem {a : Ipv6Addr} : hasAddr l a = true ↔ a ∈ l.map NeighborEntryl.addr := by
  simp [hasAddr, List.any_eq_true]

/-- **All three operations are one: update the entry, or insert it with zeros.** -/
theorem apply_eq (l : List NeighborEntryl) (op : StatOp) :
    op.apply l = upsertKey NeighborEntryl.addr op.write op.addr (unmeasured op.addr) l := by
  have hself : ∀ a, updateKey NeighborEntryl.addr (fun e => e) a l = l := by
    intro a
    induction l with
    | nil => rfl
    | cons e l ih => rw [updateKey, ih, ite_self]
  cases op with
  | discover a =>
    have hw : (StatOp.discover a).write = fun e => e := rfl
    simp only [StatOp.apply, netifNodeAddList, upsertKey, hasAddr_iff_mem, hw, StatOp.addr, hself]
    rfl
  | latency a lat loss =>
    simp only [StatOp.apply, finishStore, upsertKey, hasAddr_iff_mem]
    rfl
  | throughput a thr =>
    simp only [StatOp.apply, throughputStore, upsertKey, hasAddr_iff_mem]
    rfl

/-- **On the links each operation does what it does on the list.** -/
theorem Mem.Holds.exec {m : Mem} (h : m.Holds l) (junk : NeighborCell) (op : StatOp) :
    ∃ m', op.exec (some junk) m = .ok m' ∧ m'.Holds (op.apply l) := by
  cases op with
  | discover a => exact h.netifNodeAddList junk a
  | latency a lat loss => exact h.finishStore junk _
  | throughput a thr => exact h.throughputStore junk _

/-- The list as a map, in terms of which a step is shown to keep `StoreOf`. -/
theorem storeOf_iff :
    StoreOf ops l ↔ (l.map NeighborEntryl.addr).Nodup ∧ ∀ a,
      lookupKey NeighborEntryl.addr a l
        = if a ∈ ops.map StatOp.addr then some (lastResults ops a) else none := by
  constructor
  · rintro ⟨hnd, hmem, hlat, hthr⟩
    refine ⟨hnd, fun a => ?_⟩
    by_cases ha : a ∈ ops.map StatOp.addr
    · obtain ⟨e, he, rfl⟩ := List.mem_map.mp ((hmem a).mpr ha)
      rw [if_pos ha, lookupKey_of_mem NeighborEntryl.addr hnd he]
      unfold lastResults
      rw [← hlat e he, ← hthr e he]
    · rw [if_neg ha, ← Option.not_isSome_iff_eq_none, lookupKey_isSome, hmem]
      exact ha
  · rintro ⟨hnd, hlook⟩
    have hmem : ∀ a, a ∈ l.map NeighborEntryl.addr ↔ a ∈ ops.map StatOp.addr := by
      intro a
      rw [← lookupKey_isSome, hlook]
      split_ifs with ha
      · simp [ha]
      · simp [ha]
    have hval : ∀ e ∈ l, e = lastResults ops e.addr := by
      intro e he
      have hfound := lookupKey_of_mem NeighborEntryl.addr hnd he
      rw [hlook, if_pos ((hmem _).mp (List.mem_map_of_mem he))] at hfound
      exact (Option.some.inj hfound).symm
    refine ⟨hnd, hmem, fun e he => ?_, fun e he => ?_⟩
    · rw [hval e he]
      rfl
    · rw [hval e he]
      rfl

/-- An entry of the list has the last results of its address. -/
theorem StoreOf.eq_lastResults (h : StoreOf ops l) {e : NeighborEntryl} (he : e ∈ l) :
    e = lastResults ops e.addr := by
  have hmem := (h.mentioned _).mp (List.mem_map_of_mem he)
  have hlook := (storeOf_iff.mp h).2 e.addr
  rw [lookupKey_of_mem _ h.nodup he, if_pos hmem] at hlook
  exact Option.some.inj hlook

theorem StoreOf.step (h : StoreOf ops l) (op : StatOp) : StoreOf (ops ++ [op]) (op.apply l) := by
  rw [storeOf_iff] at h ⊢
  obtain ⟨hnd, hlook⟩ := h
  rw [apply_eq]
  have haddr : (unmeasured op.addr).addr = op.addr := rfl
  refine ⟨nodup_upsertKey op.addr_write haddr hnd, fun a => ?_⟩
  rw [lookupKey_upsertKey op.addr_write haddr, hlook, hlook]
  by_cases ha : a = op.addr
  · have hmem : a ∈ (ops ++ [op]).map StatOp.addr := by simp [ha]
    rw [if_pos ha, if_pos hmem, ha, lastResults_concat]
    split_ifs with hold
    · rfl
    · rw [lastResults_of_not_mem hold]
      rfl
  · have hmem : a ∈ (ops ++ [op]).map StatOp.addr ↔ a ∈ ops.map StatOp.addr := by simp [ha]
    rw [if_neg ha, lastResults_concat_ne ops ha]
    simp only [hmem]

theorem apply_order (l : List NeighborEntryl) (op : StatOp) :
    ∃ new, (op.apply l).map NeighborEntryl.addr = new ++ l.map NeighborEntryl.addr := by
  have haddr : (unmeasured op.addr).addr = op.addr := rfl
  rw [apply_eq, map_upsertKey op.addr_write haddr]
  split_ifs
  · exact ⟨[], rfl⟩
  · exact ⟨[op.addr], rfl⟩

theorem nodup_apply (h : (l.map NeighborEntryl.addr).Nodup) (op : StatOp) :
    ((op.apply l).map NeighborEntryl.addr).Nodup := by
  have haddr : (unmeasured op.addr).addr = op.addr := rfl
  rw [apply_eq]
  exact nodup_upsertKey op.addr_write haddr h

/-- Results of the two measurements for addresses in the list commute. -/
theorem apply_comm {a b : Ipv6Addr} (ha : a ∈ l.map NeighborEntryl.addr)
    (hb : b ∈ l.map NeighborEntryl.addr) (lat loss thr : UInt32) :
    (StatOp.throughput b thr).apply ((StatOp.latency a lat loss).apply l)
      = (StatOp.latency a lat loss).apply ((StatOp.throughput b thr).apply l) := by
  have hlat := (StatOp.latency a lat loss).addr_write
  have hthr := (StatOp.throughput b thr).addr_write
  simp only [apply_eq, upsertKey, StatOp.addr, ha, hb, if_true, map_updateKey hlat,
    map_updateKey hthr]
  exact updateKey_comm hthr hlat (fun _ => rfl) b a l

/-! ## Runs -/

/-- **From a list with the results of `ops`, every run reaches one with its results added.** -/
theorem runOps_storeOf {junk : Mem → Option NeighborCell} (hmalloc : ∀ m, (junk m).isSome)
    (later : List StatOp) {m : Mem} (h : m.Holds l) (hs : StoreOf ops l) :
    ∃ m' l', runOps junk m later = .ok m' ∧ m'.Holds l' ∧ StoreOf (ops ++ later) l' ∧
      l' = later.foldl StatOp.apply l ∧
      ∃ new, l'.map NeighborEntryl.addr = new ++ l.map NeighborEntryl.addr := by
  induction later generalizing m l ops with
  | nil => exact ⟨m, l, rfl, h, by simpa using hs, rfl, [], rfl⟩
  | cons op later ih =>
    obtain ⟨block, hblock⟩ := Option.isSome_iff_exists.mp (hmalloc m)
    obtain ⟨m₁, hexec, h₁⟩ := h.exec block op
    obtain ⟨new₁, hnew₁⟩ := apply_order l op
    obtain ⟨m', l', hrun, h', hs', hl', new, hnew⟩ := ih h₁ (hs.step op)
    refine ⟨m', l', ?_, h', by simpa using hs', hl', new ++ new₁, ?_⟩
    · rw [runOps, List.foldlM_cons, hblock, hexec]
      exact hrun
    · rw [hnew, hnew₁, List.append_assoc]

theorem storeOf_nil : StoreOf [] [] := ⟨List.nodup_nil, by simp, by simp, by simp⟩

/-- **The neighbour list is the map of the last results.** After any run from the empty list the
links stand for a list with each mentioned address once and its last results. Whatever runs
later, the entries keep their order, and latency and throughput results of known addresses
commute. `malloc` has to find a block for every record. -/
theorem neighbourStore_lastResults (junk : Mem → Option NeighborCell)
    (hmalloc : ∀ m, (junk m).isSome) (ops : List StatOp) :
    ∃ m l, runOps junk .empty ops = .ok m ∧ m.Holds l ∧ StoreOf ops l ∧
      (∀ later, ∃ m' l', runOps junk m later = .ok m' ∧ m'.Holds l' ∧ StoreOf (ops ++ later) l' ∧
        ∃ new, l'.map NeighborEntryl.addr = new ++ l.map NeighborEntryl.addr) ∧
      ∀ a b lat loss thr, a ∈ ops.map StatOp.addr → b ∈ ops.map StatOp.addr →
        ∃ m₁ m₂ l', runOps junk m [.latency a lat loss, .throughput b thr] = .ok m₁ ∧
          runOps junk m [.throughput b thr, .latency a lat loss] = .ok m₂ ∧
          m₁.Holds l' ∧ m₂.Holds l' := by
  obtain ⟨m, l, hrun, h, hs, -, -⟩ := runOps_storeOf hmalloc ops Mem.holds_empty storeOf_nil
  rw [List.nil_append] at hs
  refine ⟨m, l, hrun, h, hs, ?_, ?_⟩
  · intro later
    obtain ⟨m', l', hrun', h', hs', -, hnew⟩ := runOps_storeOf hmalloc later h hs
    exact ⟨m', l', hrun', h', hs', hnew⟩
  · intro a b lat loss thr ha hb
    obtain ⟨m₁, l₁, hrun₁, h₁, -, hl₁, -⟩ :=
      runOps_storeOf hmalloc [.latency a lat loss, .throughput b thr] h hs
    obtain ⟨m₂, l₂, hrun₂, h₂, -, hl₂, -⟩ :=
      runOps_storeOf hmalloc [.throughput b thr, .latency a lat loss] h hs
    refine ⟨m₁, m₂, l₁, hrun₁, hrun₂, h₁, ?_⟩
    have hcomm := apply_comm ((hs.mentioned a).mpr ha) ((hs.mentioned b).mpr hb) lat loss thr
    simp only [List.foldl_cons, List.foldl_nil] at hl₁ hl₂
    rw [hl₁, hcomm, ← hl₂]
    exact h₂

theorem neighbourStore_lastResults_two :
    ∃ m l, runOps (fun _ => some ⟨unmeasured 0, none⟩) .empty [.discover 1, .throughput 2 7]
        = .ok m ∧ m.Holds l ∧ StoreOf [.discover 1, .throughput 2 7] l := by
  obtain ⟨m, l, hrun, h, hs, -⟩ := neighbourStore_lastResults
    (fun _ => some ⟨unmeasured 0, none⟩) (fun _ => rfl) [.discover 1, .throughput 2 7]
  exact ⟨m, l, hrun, h, hs⟩

end Dca
