import Mathlib.Data.List.Dedup
import Dca.Neighbour.Store

/-!
# The blocks of the neighbour list

Nothing on the neighbour list is ever freed. A new entry comes with a block that is allocated for
`link` and never used, and the record of a measurement for an address that is in the list already is
not needed any more once its results are copied. So the blocks that no link leads to are as many as
the addresses and the repeated measurements.
-/

namespace Dca

open CLib

/-! ## What an operation allocates -/

/-- The operation comes with a record, which the caller allocates before it looks for the address. -/
def StatOp.isResult : StatOp → Bool
  | discover _ => false
  | latency _ _ _ | throughput _ _ => true

/-- The blocks that an operation allocates, for an address that is in the list or not. -/
def StatOp.blocks (op : StatOp) (known : Bool) : Nat :=
  if known then op.isResult.toNat else 2

section Allocation

variable {m m' : Mem} {junk : NeighborCell}

theorem brk_store {α : Type} {h h' : Heap α} {p : Nat} {a : α} (hstore : h.store p a = some h') :
    h'.brk = h.brk := by
  unfold Heap.store at hstore
  split at hstore
  · cases hstore
  · obtain rfl := Option.some.inj hstore
    rfl

theorem brk_assign {p : Nat} {c : NeighborCell} (h : m.assign p c = .ok m') :
    m'.heap.brk = m.heap.brk := by
  obtain ⟨heap, hstore, h⟩ := bind_eq_ok.mp h
  obtain rfl := Except.ok.inj h
  exact brk_store (inBounds_eq_ok.mp hstore)

theorem brk_newEntry {e : NeighborEntryl} {node : Nat} (h : m.newEntry (some junk) e = .ok (node, m')) :
    m'.heap.brk = m.heap.brk + 1 := by
  obtain ⟨m₁, hassign, h⟩ := bind_eq_ok.mp h
  obtain ⟨-, rfl⟩ := Prod.mk.inj (Except.ok.inj h)
  rw [brk_assign hassign]
  rfl

theorem brk_linkedListInsertNode {node : Nat} (h : m.linkedListInsertNode (some junk) node = .ok m') :
    m'.heap.brk = m.heap.brk + 1 := by
  obtain ⟨c, -, h⟩ := bind_eq_ok.mp h
  obtain ⟨m₁, hassign, h⟩ := bind_eq_ok.mp h
  obtain rfl := Except.ok.inj h
  show m₁.heap.brk = _
  rw [brk_assign hassign]
  rfl

theorem brk_updateFirst {write : NeighborEntryl → NeighborEntryl} {ip : Ipv6Addr} {r : UInt8}
    (h : m.updateFirst write ip = .ok (m', r)) : m'.heap.brk = m.heap.brk := by
  obtain ⟨found, -, h⟩ := bind_eq_ok.mp h
  cases found with
  | none =>
    obtain ⟨rfl, -⟩ := Prod.mk.inj (Except.ok.inj h)
    rfl
  | some ptr =>
    obtain ⟨c, -, h⟩ := bind_eq_ok.mp h
    obtain ⟨m₁, hassign, h⟩ := bind_eq_ok.mp h
    obtain ⟨rfl, -⟩ := Prod.mk.inj (Except.ok.inj h)
    exact brk_assign hassign

variable {l : List NeighborEntryl}

/-- A measurement allocates its record, and a block for `link` if the record becomes an entry. -/
theorem brk_storeRecord (hl : m.Holds l) {e : NeighborEntryl}
    {update : Mem → Nat → Res (Mem × UInt8)} {write : NeighborEntryl → NeighborEntryl}
    (hupdate : ∀ m node, m.deref node = .ok ⟨e, none⟩ →
      update m node = m.updateFirst write e.addr)
    (h : (do
        let (node, m) ← m.newEntry (some junk) e
        if (← m.linkedListNodeExists e.addr) = 0 then return (← update m node).1
        else m.linkedListInsertNode (some junk) node) = .ok m') :
    m'.heap.brk = m.heap.brk + if hasAddr l e.addr then 1 else 2 := by
  obtain ⟨cells, hl⟩ := hl
  obtain ⟨node, m₁, hnew, h₁, hnode, -⟩ := hl.newEntry junk e
  rw [hnew] at h
  simp only [ok_bind, h₁.linkedListNodeExists e.addr, hupdate m₁ node hnode] at h
  have hbrk := brk_newEntry hnew
  cases hknown : hasAddr l e.addr with
  | true =>
    simp only [hknown, if_true] at h
    obtain ⟨⟨m₂, r⟩, hwrite, h⟩ := bind_eq_ok.mp h
    obtain rfl := Except.ok.inj h
    rw [if_pos rfl, brk_updateFirst hwrite, hbrk]
  | false =>
    simp only [hknown, Bool.false_eq_true, if_false, show ¬ ((1 : UInt8) = 0) by decide] at h
    rw [if_neg Bool.false_ne_true, brk_linkedListInsertNode h, hbrk]

/-- **What an operation allocates.** -/
theorem brk_exec (hl : m.Holds l) {op : StatOp} (h : op.exec (some junk) m = .ok m') :
    m'.heap.brk = m.heap.brk + op.blocks (hasAddr l op.addr) := by
  cases op with
  | discover a =>
    obtain ⟨cells, hl⟩ := hl
    rw [StatOp.exec, Mem.netifNodeAddList, hl.linkedListNodeExists a, ok_bind] at h
    show _ = _ + StatOp.blocks (.discover a) (hasAddr l a)
    cases hknown : hasAddr l a with
    | true =>
      rw [hknown] at h
      obtain rfl := Except.ok.inj h
      rfl
    | false =>
      rw [hknown] at h
      obtain ⟨⟨node, m₁⟩, hnew, h⟩ := bind_eq_ok.mp h
      rw [brk_linkedListInsertNode h, brk_newEntry hnew]
      rfl
  | latency a lat loss =>
    have hupdate : ∀ (m : Mem) node, m.deref node
        = .ok ⟨{ addr := a, latency := lat, packetLoss := loss, throughput := 0 }, none⟩ →
          m.linkedListUpdateLatency node = m.updateFirst (NeighborEntryl.setLatency
            { addr := a, latency := lat, packetLoss := loss, throughput := 0 }) a := by
      intro m node hnode
      rw [Mem.linkedListUpdateLatency, hnode]
      rfl
    exact brk_storeRecord hl hupdate h
  | throughput a thr =>
    have hupdate : ∀ (m : Mem) node, m.deref node
        = .ok ⟨{ addr := a, latency := 0, packetLoss := 0, throughput := thr }, none⟩ →
          m.linkedListUpdateThroughput node = m.updateFirst (NeighborEntryl.setThroughput
            { addr := a, latency := 0, packetLoss := 0, throughput := thr }) a := by
      intro m node hnode
      rw [Mem.linkedListUpdateThroughput, hnode]
      rfl
    exact brk_storeRecord hl hupdate h

end Allocation

/-! ## What a run allocates -/

/-- The results for addresses that are known or that the operations before have mentioned. -/
def repeatedResults (known : List Ipv6Addr) : List StatOp → Nat
  | [] => 0
  | op :: ops =>
    (known.contains op.addr && op.isResult).toNat + repeatedResults (op.addr :: known) ops

theorem repeatedResults_congr {known known' : List Ipv6Addr} (h : ∀ a, a ∈ known ↔ a ∈ known')
    (ops : List StatOp) : repeatedResults known ops = repeatedResults known' ops := by
  induction ops generalizing known known' with
  | nil => rfl
  | cons op ops ih =>
    have hcons : ∀ a, a ∈ op.addr :: known ↔ a ∈ op.addr :: known' := by
      intro a
      rw [List.mem_cons, List.mem_cons, h a]
    have hcontains : known.contains op.addr = known'.contains op.addr := by
      rw [Bool.eq_iff_iff, List.contains_iff_mem, List.contains_iff_mem, h]
    rw [repeatedResults, repeatedResults, hcontains, ih hcons]

/-- **What the run of the operations allocates**: two blocks for each new entry, and one for each
repeated result. -/
theorem brk_runOps {junk : Mem → Option NeighborCell} (hmalloc : ∀ m, (junk m).isSome)
    (ops : List StatOp) {m : Mem} {l : List NeighborEntryl} (hl : m.Holds l) :
    ∃ m' l', runOps junk m ops = .ok m' ∧ m'.Holds l' ∧ l' = ops.foldl StatOp.apply l ∧
      m'.heap.brk + 2 * l.length
        = m.heap.brk + 2 * l'.length + repeatedResults (l.map NeighborEntryl.addr) ops := by
  induction ops generalizing m l with
  | nil => exact ⟨m, l, rfl, hl, rfl, rfl⟩
  | cons op ops ih =>
    obtain ⟨block, hblock⟩ := Option.isSome_iff_exists.mp (hmalloc m)
    obtain ⟨m₁, hexec, h₁⟩ := hl.exec block op
    obtain ⟨m', l', hrun, h', hl', hbrk⟩ := ih h₁
    have hstep := brk_exec hl hexec
    have haddrs : (op.apply l).map NeighborEntryl.addr
        = if op.addr ∈ l.map NeighborEntryl.addr then l.map NeighborEntryl.addr
          else op.addr :: l.map NeighborEntryl.addr := by
      have haddr : (unmeasured op.addr).addr = op.addr := rfl
      rw [apply_eq, map_upsertKey op.addr_write haddr]
    refine ⟨m', l', ?_, h', hl', ?_⟩
    · rw [runOps, List.foldlM_cons, hblock, hexec]
      exact hrun
    · have hlen := congrArg List.length haddrs
      rw [repeatedResults]
      by_cases hmem : op.addr ∈ l.map NeighborEntryl.addr
      · have hknown : (l.map NeighborEntryl.addr).contains op.addr = true :=
          List.contains_iff_mem.mpr hmem
        rw [if_pos hmem, List.length_map, List.length_map] at hlen
        rw [if_pos hmem] at haddrs
        rw [hknown, Bool.true_and]
        have hsame : repeatedResults (op.addr :: l.map NeighborEntryl.addr) ops
            = repeatedResults (l.map NeighborEntryl.addr) ops :=
          repeatedResults_congr (fun a => by simp; rintro rfl; simpa using hmem) ops
        rw [hasAddr_iff_mem.mpr hmem, StatOp.blocks, if_pos rfl] at hstep
        rw [hsame]
        rw [haddrs] at hbrk
        omega
      · have hknown : (l.map NeighborEntryl.addr).contains op.addr = false := by
          rw [← Bool.not_eq_true, List.contains_iff_mem]
          exact hmem
        rw [if_neg hmem, List.length_map, List.length_cons, List.length_map] at hlen
        rw [if_neg hmem] at haddrs
        rw [hknown, Bool.false_and, Bool.toNat_false]
        have hunknown : hasAddr l op.addr = false := by
          rw [← Bool.not_eq_true, hasAddr_iff_mem]
          exact hmem
        rw [hunknown, StatOp.blocks, if_neg Bool.false_ne_true] at hstep
        rw [haddrs] at hbrk
        omega

/-! ## What is lost -/

/-- The blocks that no link leads to. -/
def lostBlocks (m : Mem) (cells : List (Nat × NeighborCell)) : Nat :=
  (List.range m.heap.brk).countP fun q => q ∉ cells.map Prod.fst

/-- The blocks are those of the list and those that are lost. -/
theorem Represents.lostBlocks_add {m : Mem} {cells : List (Nat × NeighborCell)}
    {l : List NeighborEntryl} (h : Represents m cells l) :
    lostBlocks m cells + l.length = m.heap.brk := by
  have hperm : ((List.range m.heap.brk).filter fun q => q ∈ cells.map Prod.fst).Perm
      (cells.map Prod.fst) := by
    refine (List.perm_ext_iff_of_nodup (List.nodup_range.filter _) h.nodup).mpr fun q => ?_
    rw [List.mem_filter, List.mem_range, decide_eq_true_iff]
    exact ⟨fun hq => hq.2, fun hq => ⟨h.links.lt_brk hq, hq⟩⟩
  have hlen := hperm.length_eq
  rw [← List.countP_eq_length_filter, List.length_map] at hlen
  have htotal := List.length_eq_countP_add_countP
    (fun q => decide (q ∈ cells.map Prod.fst)) (l := List.range m.heap.brk)
  rw [List.length_range] at htotal
  have hcells : cells.length = l.length := by rw [← h.entries, List.length_map]
  simp only [lostBlocks, decide_not]
  simp only [decide_eq_true_eq, decide_not] at htotal
  omega

/--
**What the statistics lose**: after any run from the empty list there are as many blocks that no link
leads to as there are addresses and repeated results. `malloc` has to find every block.
-/
theorem lostBlocks_runOps (junk : Mem → Option NeighborCell) (hmalloc : ∀ m, (junk m).isSome)
    (ops : List StatOp) :
    ∃ m cells, runOps junk .empty ops = .ok m ∧
      Represents m cells (ops.foldl StatOp.apply []) ∧
      lostBlocks m cells = (ops.map StatOp.addr).dedup.length + repeatedResults [] ops := by
  obtain ⟨m, l, hrun, ⟨cells, hl⟩, rfl, hbrk⟩ := brk_runOps hmalloc ops Mem.holds_empty
  obtain ⟨m', l', hrun', h', hs, rfl, -⟩ := runOps_storeOf hmalloc ops Mem.holds_empty storeOf_nil
  refine ⟨m, cells, hrun, hl, ?_⟩
  -- the list has each address once
  have hperm : ((ops.foldl StatOp.apply []).map NeighborEntryl.addr).Perm
      (ops.map StatOp.addr).dedup := by
    refine (List.perm_ext_iff_of_nodup hs.nodup (List.nodup_dedup _)).mpr fun a => ?_
    rw [List.mem_dedup, hs.mentioned a, List.nil_append]
  have hlen := hperm.length_eq
  rw [List.length_map] at hlen
  have hempty : Mem.empty.heap.brk = 0 := rfl
  have hlost := hl.lostBlocks_add
  rw [List.length_nil, hempty, List.map_nil] at hbrk
  omega

theorem lostBlocks_runOps_repeated :
    ∃ m cells, runOps (fun _ => some ⟨unmeasured 0, none⟩) .empty
        [.discover 1, .throughput 1 7, .throughput 1 8] = .ok m ∧
      Represents m cells [{ unmeasured 1 with throughput := 8 }] ∧ lostBlocks m cells = 3 := by
  obtain ⟨m, cells, hrun, h, hlost⟩ := lostBlocks_runOps (fun _ => some ⟨unmeasured 0, none⟩)
    (fun _ => rfl) [.discover 1, .throughput 1 7, .throughput 1 8]
  exact ⟨m, cells, hrun, h, hlost⟩

end Dca
