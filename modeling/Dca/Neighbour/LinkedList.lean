import Dca.Lib.Heap
import Dca.Neighbour.Entries

/-!
# `linked_list.c` on the heap

The functions of `linked_list.c` and their three callers with pointers, `malloc` and links as they
are in the source. `Represents` says which list the links stand for, and every function is shown
to do to the links what the function of `Entries.lean` does to that list.
-/

namespace Dca

open CLib

/-- `struct neighbor_entryl` -/
structure NeighborCell extends NeighborEntryl where
  next : Option Nat
  deriving DecidableEq

/-- The heap and `head`. (`current` is never used.) -/
structure Mem where
  heap : Heap NeighborCell
  head : Option Nat

namespace Mem

/-- Before the first entry. -/
def empty : Mem := ⟨.empty, none⟩

/-- A pointer into the heap that has to be valid. -/
def deref (m : Mem) (p : Nat) : Res NeighborCell := inBounds (m.heap.load p)

/-- `*p = c` -/
def assign (m : Mem) (p : Nat) (c : NeighborCell) : Res Mem := do
  return { m with heap := ← inBounds (m.heap.store p c) }

/-- `malloc(sizeof(struct neighbor_entryl))`: a block that holds `junk`, or NULL without one. -/
def malloc (m : Mem) (junk : Option NeighborCell) : Option Nat × Mem :=
  match junk with
  | some junk => (some (m.heap.malloc junk).1, { m with heap := (m.heap.malloc junk).2 })
  | none => (none, m)

variable (junk : Option NeighborCell)

/-- `linked_list_insert_node`. The block that is allocated for `link` is never used. -/
def linkedListInsertNode (m : Mem) (node : Nat) : Res Mem := do
  let (_, m) := m.malloc junk
  let link := node
  let m ← m.assign link { ← m.deref link with next := m.head }
  return { m with head := some link }

/-- `ptr = ptr->next`, `k` times. -/
def stepPtr (m : Mem) : Nat → Option Nat → Res (Option Nat)
  | 0, ptr => .ok ptr
  | _ + 1, none => .error .null
  | k + 1, some p => do stepPtr m k (← m.deref p).next

/-- `linked_list_read_ip`, with what it leaves in `addr_str` and its return value. -/
def linkedListReadIp {n : Nat} (m : Mem) (env : Env) (numNeighbours : UInt8) (addrStr : Buf n) :
    Res (Buf n × Nat) := do
  if m.head = none then return (addrStr, 1)
  match ← m.stepPtr (numNeighbours.toNat - 1) m.head with
  | some p => return (← inBounds (addrStr.strcpy (env.ipv6AddrToStr (← m.deref p).addr)), 0)
  | none => return (addrStr, 1)

/-- `linked_list_read` -/
def linkedListRead (m : Mem) (subfieldCount numNeighbours : UInt8) : Res UInt32 := do
  if m.head = none then return 1
  match ← m.stepPtr (numNeighbours.toNat - 1) m.head with
  | some p => return (← m.deref p).subField subfieldCount
  | none => return 1

/-- The loop over the links that stops at the first entry of an address. -/
def findPtr (m : Mem) (ip : Ipv6Addr) : Nat → Option Nat → Res (Option Nat)
  | 0, _ => .error .fuel
  | _ + 1, none => .ok none
  | fuel + 1, some p => do
    let c ← m.deref p
    if c.addr = ip then return some p else findPtr m ip fuel c.next

/-- A loop over the links that comes back meets every block at most once. -/
def loopBound (m : Mem) : Nat := m.heap.brk + 1

/-- `linked_list_node_exists` -/
def linkedListNodeExists (m : Mem) (ipCache : Ipv6Addr) : Res UInt8 := do
  return if (← m.findPtr ipCache m.loopBound m.head).isSome then 0 else 1

/-- The loop of the two update functions: write to the first entry of an address. -/
def updateFirst (m : Mem) (write : NeighborEntryl → NeighborEntryl) (ip : Ipv6Addr) :
    Res (Mem × UInt8) := do
  match ← m.findPtr ip m.loopBound m.head with
  | some ptr =>
    let c ← m.deref ptr
    return (← m.assign ptr { c with toNeighborEntryl := write c.toNeighborEntryl }, 0)
  | none => return (m, 1)

/-- `linked_list_update_latency` -/
def linkedListUpdateLatency (m : Mem) (node : Nat) : Res (Mem × UInt8) := do
  let n ← m.deref node
  m.updateFirst n.setLatency n.addr

/-- `linked_list_update_throughput` -/
def linkedListUpdateThroughput (m : Mem) (node : Nat) : Res (Mem × UInt8) := do
  let n ← m.deref node
  m.updateFirst n.setThroughput n.addr

/-! ## The callers -/

/-- `malloc` and the assignments to the fields of the new record. -/
def newEntry (m : Mem) (e : NeighborEntryl) : Res (Nat × Mem) := do
  match m.malloc junk with
  | (some node, m) => return (node, ← m.assign node ⟨e, none⟩)
  | (none, _) => .error .null

/-- `_netif_node_add_list` -/
def netifNodeAddList (m : Mem) (ipAddr : Ipv6Addr) : Res Mem := do
  if (← m.linkedListNodeExists ipAddr) ≠ 0 then
    let (node, m) ← m.newEntry junk { addr := ipAddr, latency := 0, packetLoss := 0, throughput := 0 }
    m.linkedListInsertNode junk node
  else return m

/-- The store step of `_finish`. -/
def finishStore (m : Mem) (e : NeighborEntryl) : Res Mem := do
  let (node, m) ← m.newEntry junk e
  if (← m.linkedListNodeExists e.addr) = 0 then
    return (← m.linkedListUpdateLatency node).1
  else m.linkedListInsertNode junk node

/-- The store step at the end of a round of `db_measure_network_throughput`. -/
def throughputStore (m : Mem) (e : NeighborEntryl) : Res Mem := do
  let (node, m) ← m.newEntry junk e
  if (← m.linkedListNodeExists e.addr) = 0 then
    return (← m.linkedListUpdateThroughput node).1
  else m.linkedListInsertNode junk node

end Mem

/-! ## The list behind the links -/

/-- The links from `head` on are distinct cells with the entries `l`. -/
structure Represents (m : Mem) (cells : List (Nat × NeighborCell)) (l : List NeighborEntryl) :
    Prop where
  links : Links NeighborCell.next m.heap m.head cells
  nodup : (cells.map Prod.fst).Nodup
  entries : cells.map (·.2.toNeighborEntryl) = l

/-- The memory holds the list `l`. -/
def Mem.Holds (m : Mem) (l : List NeighborEntryl) : Prop := ∃ cells, Represents m cells l

theorem Mem.holds_empty : Mem.empty.Holds [] := ⟨[], .nil, List.nodup_nil, rfl⟩

/-- The links stand for one list. -/
theorem Mem.Holds.unique {m : Mem} {l l' : List NeighborEntryl} (h : m.Holds l) (h' : m.Holds l') :
    l = l' := by
  obtain ⟨cells, h⟩ := h
  obtain ⟨cells', h'⟩ := h'
  rw [← h.entries, ← h'.entries, h.links.unique h'.links]

variable {m : Mem} {cells : List (Nat × NeighborCell)} {l : List NeighborEntryl}

/-! ## Searching -/

theorem findPtr_eq {p : Option Nat} (hl : Links NeighborCell.next m.heap p cells) (ip : Ipv6Addr)
    {fuel : Nat} (hfuel : cells.length < fuel) :
    m.findPtr ip fuel p = .ok ((cells.find? (·.2.addr = ip)).map Prod.fst) := by
  induction hl generalizing fuel with
  | nil =>
    obtain ⟨fuel, rfl⟩ := Nat.exists_eq_succ_of_ne_zero (Nat.ne_of_gt hfuel)
    rfl
  | @cons p c cells hp rest ih =>
    obtain ⟨fuel, rfl⟩ := Nat.exists_eq_succ_of_ne_zero (Nat.ne_of_gt (Nat.zero_lt_of_lt hfuel))
    rw [List.length_cons] at hfuel
    rw [Mem.findPtr, Mem.deref, hp]
    simp only [inBounds, ok_bind]
    by_cases haddr : c.addr = ip
    · simp [haddr]
    · rw [if_neg haddr, ih (by omega), List.find?_cons_of_neg (by simpa using haddr)]

/-- Distinct addresses in use are no more than there are blocks. -/
theorem Represents.length_lt (h : Represents m cells l) : cells.length < m.loopBound := by
  have hsub : cells.map Prod.fst ⊆ List.range m.heap.brk :=
    fun q hq => List.mem_range.mpr (h.links.lt_brk hq)
  have hlen := List.Nodup.length_le_of_subset h.nodup hsub
  rw [List.length_map, List.length_range] at hlen
  exact Nat.lt_succ_of_le hlen

theorem Represents.hasAddr_iff (h : Represents m cells l) (ip : Ipv6Addr) :
    hasAddr l ip = (cells.find? (·.2.addr = ip)).isSome := by
  rw [← h.entries, hasAddr, List.any_map, Bool.eq_iff_iff, List.any_eq_true, List.find?_isSome]
  rfl

/-- **`linked_list_node_exists` looks for the address in the list.** -/
theorem Represents.linkedListNodeExists (h : Represents m cells l) (ip : Ipv6Addr) :
    m.linkedListNodeExists ip = .ok (if hasAddr l ip then 0 else 1) := by
  rw [Mem.linkedListNodeExists, findPtr_eq h.links ip h.length_lt, h.hasAddr_iff ip,
    ← Option.isSome_map (f := Prod.fst)]
  rfl

/-! ## Writing -/

theorem assign_eq {p : Nat} {c : NeighborCell} (c' : NeighborCell) (hp : m.heap.load p = some c) :
    ∃ heap, m.assign p c' = .ok ⟨heap, m.head⟩ ∧ heap.load p = some c' ∧
      ∀ q, q ≠ p → heap.load q = m.heap.load q := by
  obtain ⟨heap, hstore, hself, hother⟩ := Heap.store_eq_some c' hp
  refine ⟨heap, ?_, hself, hother⟩
  rw [Mem.assign, hstore]
  rfl

/-- **An update writes to the first entry of the address, if there is one.** -/
theorem Represents.updateFirst (h : Represents m cells l) (write : NeighborEntryl → NeighborEntryl)
    (ip : Ipv6Addr) :
    ∃ m' r, m.updateFirst write ip = .ok (m', r) ∧
      m'.Holds (updateKey NeighborEntryl.addr write ip l) := by
  unfold Mem.updateFirst
  rw [findPtr_eq h.links ip h.length_lt]
  cases hfind : cells.find? (·.2.addr = ip) with
  | none =>
    refine ⟨m, 1, rfl, ?_⟩
    rw [updateKey_of_not_mem]
    · exact ⟨cells, h⟩
    · intro e he
      rw [← h.entries] at he
      obtain ⟨⟨q, d⟩, hd, rfl⟩ := List.mem_map.mp he
      simpa using List.find?_eq_none.mp hfind _ hd
  | some pc =>
    obtain ⟨ptr, c⟩ := pc
    -- the cell that is written has its place between `before` and `behind`
    obtain ⟨hc, before, behind, rfl, hbefore⟩ := List.find?_eq_some_iff_append.mp hfind
    have haddr : c.addr = ip := by simpa using hc
    have hload := h.links.load_of_mem (q := ptr) (a := c) (by simp)
    obtain ⟨heap, hassign, hself, hother⟩ :=
      assign_eq { c with toNeighborEntryl := write c.toNeighborEntryl } hload
    have hlinks := h.links.store h.nodup hself hother rfl
    refine ⟨⟨heap, m.head⟩, 0, ?_, _, hlinks, ?_, ?_⟩
    · simp [Mem.deref, hload, inBounds, hassign]
    · have hnd := h.nodup
      simpa using hnd
    · rw [← h.entries, List.map_append, List.map_append, updateKey_append]
      · rw [List.map_cons, List.map_cons, updateKey_cons_self haddr]
      · intro e he
        obtain ⟨⟨q, d⟩, hd, rfl⟩ := List.mem_map.mp he
        simpa using hbefore _ hd

/-- **The new record lies outside the list.** -/
theorem Represents.newEntry (h : Represents m cells l) (junk : NeighborCell) (e : NeighborEntryl) :
    ∃ node m', m.newEntry (some junk) e = .ok (node, m') ∧ Represents m' cells l ∧
      m'.deref node = .ok ⟨e, none⟩ ∧ node ∉ cells.map Prod.fst := by
  have hnot : m.heap.brk ∉ cells.map Prod.fst := fun hmem => Nat.lt_irrefl _ (h.links.lt_brk hmem)
  have hload : (m.malloc (some junk)).2.heap.load m.heap.brk = some junk :=
    Heap.load_malloc_self m.heap junk
  obtain ⟨heap, hassign, hself, hother⟩ := assign_eq ⟨e, none⟩ hload
  refine ⟨m.heap.brk, ⟨heap, m.head⟩, ?_, ⟨?_, h.nodup, h.entries⟩, ?_, hnot⟩
  · show (do return (m.heap.brk, ← (m.malloc (some junk)).2.assign m.heap.brk ⟨e, none⟩)) = _
    rw [hassign]
    rfl
  · refine (h.links.malloc junk).frame ?_
    intro q hq
    exact hother q (fun heq => hnot (heq ▸ hq))
  · rw [Mem.deref, hself]
    rfl

/-- The block for `link`, if there is one, changes nothing that is there. -/
theorem load_malloc (m : Mem) (junk : Option NeighborCell) {p : Nat} {c : NeighborCell}
    (h : m.heap.load p = some c) : (m.malloc junk).2.heap.load p = some c := by
  cases junk with
  | none => exact h
  | some junk =>
    rw [← h]
    exact Heap.load_malloc_ne (Nat.ne_of_lt (Heap.load_lt h))

theorem head_malloc (m : Mem) (junk : Option NeighborCell) : (m.malloc junk).2.head = m.head := by
  cases junk <;> rfl

/-- **`linked_list_insert_node` puts the record in front of the list**, whether there is a block for
`link` or not. -/
theorem Represents.linkedListInsertNode (h : Represents m cells l) (junk : Option NeighborCell)
    {node : Nat} {c : NeighborCell} (hnode : m.deref node = .ok c)
    (hnot : node ∉ cells.map Prod.fst) :
    ∃ m', m.linkedListInsertNode junk node = .ok m' ∧
      m'.Holds (insertEntry l c.toNeighborEntryl) := by
  have hload : m.heap.load node = some c := by simpa [Mem.deref] using hnode
  have hload' := load_malloc m junk hload
  obtain ⟨heap, hassign, hself, hother⟩ := assign_eq { c with next := m.head } hload'
  refine ⟨⟨heap, some node⟩, ?_, (node, { c with next := m.head }) :: cells, ?_, ?_, ?_⟩
  · have hderef : (m.malloc junk).2.deref node = .ok c := by
      rw [Mem.deref, hload']
      rfl
    have hhead := head_malloc m junk
    unfold Mem.linkedListInsertNode
    simp only [hderef, ok_bind, hhead, hassign]
    rfl
  · have hlinks : Links NeighborCell.next (m.malloc junk).2.heap m.head cells :=
      h.links.frame fun q hq => by
        obtain ⟨⟨q, c'⟩, hmem, rfl⟩ := List.mem_map.mp hq
        have hq' := h.links.load_of_mem hmem
        rw [load_malloc m junk hq', hq']
    refine .cons hself (hlinks.frame ?_)
    intro q hq
    exact hother q (fun heq => hnot (heq ▸ hq))
  · exact List.nodup_cons.mpr ⟨hnot, h.nodup⟩
  · rw [List.map_cons, h.entries]
    rfl

/-! ## The callers -/

theorem Represents.insertNew (h : Represents m cells l) (junk : NeighborCell) (e : NeighborEntryl) :
    ∃ m', (do
        let (node, m) ← m.newEntry (some junk) e
        m.linkedListInsertNode (some junk) node) = .ok m' ∧
      m'.Holds (insertEntry l e) := by
  obtain ⟨node, m₁, hnew, h₁, hnode, hnot⟩ := h.newEntry junk e
  obtain ⟨m₂, hins, h₂⟩ := h₁.linkedListInsertNode (some junk) hnode hnot
  exact ⟨m₂, by rw [hnew]; exact hins, h₂⟩

theorem Mem.Holds.netifNodeAddList (h : m.Holds l) (junk : NeighborCell) (ip : Ipv6Addr) :
    ∃ m', m.netifNodeAddList (some junk) ip = .ok m' ∧ m'.Holds (Dca.netifNodeAddList l ip) := by
  obtain ⟨cells, h⟩ := h
  unfold Mem.netifNodeAddList Dca.netifNodeAddList
  rw [h.linkedListNodeExists ip]
  cases hasAddr l ip with
  | true => exact ⟨m, rfl, cells, h⟩
  | false =>
    obtain ⟨m', hm', h'⟩ := h.insertNew junk
      { addr := ip, latency := 0, packetLoss := 0, throughput := 0 }
    exact ⟨m', hm', h'⟩

/-- **A new record updates the entry of its address, or becomes it.** -/
theorem Mem.Holds.storeRecord (h : m.Holds l) (junk : NeighborCell) (e : NeighborEntryl)
    {update : Mem → Nat → Res (Mem × UInt8)} {write : NeighborEntryl → NeighborEntryl}
    (hupdate : ∀ m node, m.deref node = .ok ⟨e, none⟩ →
      update m node = m.updateFirst write e.addr) :
    ∃ m', (do
        let (node, m) ← m.newEntry (some junk) e
        if (← m.linkedListNodeExists e.addr) = 0 then return (← update m node).1
        else m.linkedListInsertNode (some junk) node) = .ok m' ∧
      m'.Holds (if hasAddr l e.addr then updateKey NeighborEntryl.addr write e.addr l
        else insertEntry l e) := by
  obtain ⟨cells, h⟩ := h
  obtain ⟨node, m₁, hnew, h₁, hnode, hnot⟩ := h.newEntry junk e
  rw [hnew]
  simp only [ok_bind, h₁.linkedListNodeExists e.addr, hupdate m₁ node hnode]
  cases hasAddr l e.addr with
  | true =>
    obtain ⟨m₂, r, hup, h₂⟩ := h₁.updateFirst write e.addr
    exact ⟨m₂, by simp [hup], h₂⟩
  | false =>
    obtain ⟨m₂, hins, h₂⟩ := h₁.linkedListInsertNode (some junk) hnode hnot
    exact ⟨m₂, by simpa using hins, h₂⟩

theorem Mem.Holds.finishStore (h : m.Holds l) (junk : NeighborCell) (e : NeighborEntryl) :
    ∃ m', m.finishStore (some junk) e = .ok m' ∧ m'.Holds (Dca.finishStore l e) := by
  refine h.storeRecord junk e ?_
  intro m node hnode
  rw [Mem.linkedListUpdateLatency, hnode]
  rfl

theorem Mem.Holds.throughputStore (h : m.Holds l) (junk : NeighborCell) (e : NeighborEntryl) :
    ∃ m', m.throughputStore (some junk) e = .ok m' ∧ m'.Holds (Dca.throughputStore l e) := by
  refine h.storeRecord junk e ?_
  intro m node hnode
  rw [Mem.linkedListUpdateThroughput, hnode]
  rfl

/-! ## Reading -/

/-- Following links is dropping entries. -/
theorem stepPtr_stepLinks {p : Option Nat} (hl : Links NeighborCell.next m.heap p cells) (k : Nat) :
    Both (fun p' l' => ∃ cells', Links NeighborCell.next m.heap p' cells' ∧
        cells'.map (·.2.toNeighborEntryl) = l')
      (m.stepPtr k p) (stepLinks k (cells.map (·.2.toNeighborEntryl))) := by
  induction k generalizing p cells with
  | zero => exact .ok ⟨cells, hl, rfl⟩
  | succ k ih =>
    cases hl with
    | nil => exact .error _
    | @cons p c cells hp rest =>
      rw [Mem.stepPtr, Mem.deref, hp, List.map_cons, stepLinks]
      exact ih rest

theorem Represents.head_eq_none (h : Represents m cells l) : m.head = none ↔ l = [] := by
  rw [← h.entries]
  obtain ⟨hl, -, -⟩ := h
  generalize m.head = p at hl
  cases hl with
  | nil => simp
  | cons hp rest => simp

/-- **A reader of one entry sees the same entry in the list.** -/
theorem Represents.readEntry (h : Represents m cells l) (k : Nat) {β : Type} (dflt : β)
    (f : NeighborEntryl → Res β) :
    (do
      if m.head = none then return dflt
      match ← m.stepPtr k m.head with
      | some p => f (← m.deref p).toNeighborEntryl
      | none => return dflt) =
    (do
      if l = [] then return dflt
      match ← stepLinks k l with
      | e :: _ => f e
      | [] => return dflt) := by
  simp only [h.head_eq_none]
  split_ifs
  · rfl
  · have hstep := stepPtr_stepLinks h.links k
    rw [h.entries] at hstep
    generalize m.stepPtr k m.head = r at hstep ⊢
    generalize stepLinks k l = r' at hstep ⊢
    cases hstep with
    | error e => rfl
    | ok hr =>
      obtain ⟨cells', hlinks, rfl⟩ := hr
      cases hlinks with
      | nil => rfl
      | cons hp rest =>
        simp only [ok_bind, Mem.deref, hp, inBounds]
        rfl

theorem Represents.linkedListReadIp (h : Represents m cells l) (env : Env) (num : UInt8) {n : Nat}
    (addrStr : Buf n) : m.linkedListReadIp env num addrStr = readIp env l num addrStr :=
  h.readEntry (num.toNat - 1) (addrStr, 1) fun e => do
    return (← inBounds (addrStr.strcpy (env.ipv6AddrToStr e.addr)), 0)

theorem Represents.linkedListRead (h : Represents m cells l) (sub num : UInt8) :
    m.linkedListRead sub num = readSubField l sub num :=
  h.readEntry (num.toNat - 1) 1 fun e => .ok (e.subField sub)

end Dca
