import Dca.Lib.Run
import Dca.Neighbour.Turns

/-!
# The neighbour list among threads

The shell measures, the thread of CoAP looks for neighbours, and nothing locks the list. Here threads
take the turns of their operations in any order.

Whatever the order, every link leads to an entry. The list is the map of the last results in the
order in which the operations are done, provided that no entry comes between `link->next = head` and
`head = link`, that the address of a new entry is still missing then, and that the latency that an
update has stored is still there when it stores the packet loss (`Unraced`). Between these two
stores the entry has the latency of an operation that is not done.
-/

namespace Dca

open CLib

/-! ## What a thread relies on -/

namespace StorePc

/-- What a thread has found out before `head = link` still holds, and before the second store to an
entry the first one is still there. -/
def Unraced (m : Mem) : StorePc → Prop
  | .publish op node =>
    (m.heap.load node).map NeighborCell.next = some m.head ∧ m.linkedListNodeExists op.addr = .ok 1
  | .assignLoss _ lat _ _ ptr => (m.heap.load ptr).map (·.latency) = some lat
  | _ => True

instance Unraced.decidable (m : Mem) : ∀ pc : StorePc, Decidable (pc.Unraced m)
  | .publish op node => inferInstanceAs (Decidable ((m.heap.load node).map NeighborCell.next
      = some m.head ∧ m.linkedListNodeExists op.addr = .ok 1))
  | .assignLoss _ lat _ _ ptr =>
    inferInstanceAs (Decidable ((m.heap.load ptr).map (·.latency) = some lat))
  | .idle | .search _ _ _ | .link _ _ | .update _ _ _ | .assign _ _ _ => .isTrue trivial

end StorePc

/-- The memory and the threads. -/
structure SharedStats (ι : Type) where
  mem : Mem
  pc : ι → StorePc
  /-- Not a variable: the operations that are done, in order. -/
  done : List StatOp

/-- A thread begins an operation, or takes a turn in it. -/
inductive StoreEvent (ι : Type) where
  | begin (t : ι) (op : StatOp) (junk : Option NeighborCell)
  | turn (t : ι) (junk : Option NeighborCell)

/-- Whose step it is. -/
def StoreEvent.thread {ι : Type} : StoreEvent ι → ι
  | begin t _ _ | turn t _ => t

namespace SharedStats

variable {ι : Type}

/-- No thread is in an operation. -/
def boot (ι : Type) (m : Mem) : SharedStats ι := ⟨m, fun _ => .idle, []⟩

variable [DecidableEq ι]

/-- What a turn of a thread leaves. -/
def after (s : SharedStats ι) (t : ι) (r : Mem × StorePc × List StatOp) : SharedStats ι :=
  ⟨r.1, fun t' => if t' = t then r.2.1 else s.pc t', s.done ++ r.2.2⟩

/-- One step, if it is possible. -/
def step (s : SharedStats ι) : StoreEvent ι → Option (SharedStats ι)
  | .begin t op junk =>
    match s.pc t with
    | .idle => (StorePc.begin junk s.mem op).toOption.map (s.after t)
    | _ => none
  | .turn t junk => ((s.pc t).turn junk s.mem).toOption.map (s.after t)

/-- Where an entry is put in front of the list, nobody has done so since the link of the entry was
written, and its address is missing. Where a packet loss is stored, nobody has stored another latency
since the one of the same result. -/
def Unraced (s : SharedStats ι) : StoreEvent ι → Prop
  | .begin _ _ _ => True
  | .turn t _ => (s.pc t).Unraced s.mem

instance Unraced.decidable (s : SharedStats ι) : ∀ e, Decidable (s.Unraced e)
  | .begin _ _ _ => .isTrue trivial
  | .turn t _ => inferInstanceAs (Decidable ((s.pc t).Unraced s.mem))

end SharedStats

/-! ## Links -/

namespace StorePc

/-- The pointer of a loop. -/
def ptr? : StorePc → Option (Option Nat)
  | search _ _ ptr | update _ _ ptr => some ptr
  | assign _ _ ptr | assignLoss _ _ _ _ ptr => some (some ptr)
  | idle | link _ _ | publish _ _ => none

/-- The record of the operation, which no link leads to. -/
def own? : StorePc → Option (StatOp × Nat)
  | search op (some node) _ | link op node | publish op node | update op node _
  | assign op node _ => some (op, node)
  | assignLoss a lat loss node _ => some (.latency a lat loss, node)
  | idle | search _ none _ => none

/-- The thread does not stand between two stores. -/
def Whole (pc : StorePc) : Prop := ∀ a lat loss node ptr, pc ≠ assignLoss a lat loss node ptr

end StorePc

namespace SharedStats

variable {ι : Type}

/-- The pointers that threads begin to follow links at. -/
inductive Leads (s : SharedStats ι) : Option Nat → Prop where
  | head : Leads s s.mem.head
  | ptr {t : ι} {p : Option Nat} (h : (s.pc t).ptr? = some p) : Leads s p
  | next {t : ι} {op : StatOp} {node : Nat} {c : NeighborCell} (hpc : s.pc t = .publish op node)
      (hload : s.mem.heap.load node = some c) : Leads s c.next

/-- From a pointer there are links to entries, none of which a thread has for itself. -/
def LeadsTo (s : SharedStats ι) (h : Heap NeighborCell) (p : Option Nat) : Prop :=
  ∃ cells, Links NeighborCell.next h p cells ∧
    ∀ t op node, (s.pc t).own? = some (op, node) → node ∉ cells.map Prod.fst

theorem LeadsTo.mono {s s' : SharedStats ι} {heap : Heap NeighborCell} {p : Option Nat}
    (h : s.LeadsTo heap p)
    (hown : ∀ t x, (s'.pc t).own? = some x → (s.pc t).own? = some x) : s'.LeadsTo heap p := by
  obtain ⟨cells, hlinks, hnot⟩ := h
  exact ⟨cells, hlinks, fun t op node hnode => hnot t op node (hown t _ hnode)⟩

/-- Every link leads to an entry, and each record belongs to one thread. -/
structure Linked (s : SharedStats ι) : Prop where
  leads : ∀ p, s.Leads p → s.LeadsTo s.mem.heap p
  record : ∀ t op node, (s.pc t).own? = some (op, node) →
    ∃ next, s.mem.heap.load node = some ⟨op.record, next⟩
  apart : ∀ t t' op op' node, (s.pc t).own? = some (op, node) → (s.pc t').own? = some (op', node) →
    t = t'

theorem linked_boot {m : Mem} {l : List NeighborEntryl} (h : m.Holds l) : (boot ι m).Linked where
  leads := by
    rintro _ (_ | hptr | hpc)
    · obtain ⟨cells, hcells⟩ := h
      exact ⟨cells, hcells.links, by simp [boot, StorePc.own?]⟩
    · simp [boot, StorePc.ptr?] at hptr
    · simp [boot] at hpc
  record := by simp [boot, StorePc.own?]
  apart := by simp [boot, StorePc.own?]

variable {s : SharedStats ι} {t : ι} {r : Mem × StorePc × List StatOp}

/-! ## What a thread can do -/

/-- What a thread can do. -/
inductive Moves (s : SharedStats ι) (t : ι) : Mem × StorePc × List StatOp → Prop where
  | idle (hpc : s.pc t = .idle) : Moves s t (s.mem, .idle, [])
  | look {a : Ipv6Addr} (hpc : s.pc t = .idle) :
      Moves s t (s.mem, .search (.discover a) none s.mem.head, [])
  | measured {op : StatOp} {heap : Heap NeighborCell} (hpc : s.pc t = .idle)
      (hself : heap.load s.mem.heap.brk = some ⟨op.record, none⟩)
      (hother : ∀ q, q ≠ s.mem.heap.brk → heap.load q = s.mem.heap.load q) :
      Moves s t (⟨heap, s.mem.head⟩, .search op (some s.mem.heap.brk) s.mem.head, [])
  | pass {op : StatOp} {node : Option Nat} {ptr : Nat} {c : NeighborCell}
      (hpc : s.pc t = .search op node (some ptr)) (hload : s.mem.heap.load ptr = some c)
      (haddr : c.addr ≠ op.addr) : Moves s t (s.mem, .search op node c.next, [])
  | known {op : StatOp} {ptr : Nat} {c : NeighborCell} (hpc : s.pc t = .search op none (some ptr))
      (hload : s.mem.heap.load ptr = some c) (haddr : c.addr = op.addr) :
      Moves s t (s.mem, .idle, [op])
  | found {op : StatOp} {node ptr : Nat} {c : NeighborCell}
      (hpc : s.pc t = .search op (some node) (some ptr)) (hload : s.mem.heap.load ptr = some c)
      (haddr : c.addr = op.addr) : Moves s t (s.mem, .update op node s.mem.head, [])
  | discovered {op : StatOp} {heap : Heap NeighborCell} (hpc : s.pc t = .search op none none)
      (hself : heap.load s.mem.heap.brk = some ⟨op.record, none⟩)
      (hother : ∀ q, q ≠ s.mem.heap.brk → heap.load q = s.mem.heap.load q) :
      Moves s t (⟨heap, s.mem.head⟩, .link op s.mem.heap.brk, [])
  | missing {op : StatOp} {node : Nat} (hpc : s.pc t = .search op (some node) none) :
      Moves s t (s.mem, .link op node, [])
  | link {op : StatOp} {node : Nat} {heap : Heap NeighborCell} (hpc : s.pc t = .link op node)
      (hself : heap.load node = some ⟨op.record, s.mem.head⟩)
      (hother : ∀ q, q ≠ node → q ≠ s.mem.heap.brk → heap.load q = s.mem.heap.load q) :
      Moves s t (⟨heap, s.mem.head⟩, .publish op node, [])
  | publish {op : StatOp} {node : Nat} (hpc : s.pc t = .publish op node) :
      Moves s t ({ s.mem with head := some node }, .idle, [op])
  | gone {op : StatOp} {node : Nat} (hpc : s.pc t = .update op node none) :
      Moves s t (s.mem, .idle, [op])
  | skip {op : StatOp} {node ptr : Nat} {c : NeighborCell}
      (hpc : s.pc t = .update op node (some ptr)) (hload : s.mem.heap.load ptr = some c)
      (haddr : c.addr ≠ op.addr) : Moves s t (s.mem, .update op node c.next, [])
  | same {op : StatOp} {node ptr : Nat} {c : NeighborCell}
      (hpc : s.pc t = .update op node (some ptr)) (hload : s.mem.heap.load ptr = some c)
      (haddr : c.addr = op.addr) : Moves s t (s.mem, .assign op node ptr, [])
  | write {op : StatOp} {node ptr : Nat} {c : NeighborCell} {heap : Heap NeighborCell}
      (hpc : s.pc t = .assign op node ptr) (hload : s.mem.heap.load ptr = some c)
      (hop : ∀ a lat loss, op ≠ .latency a lat loss)
      (hself : heap.load ptr = some ⟨op.write c.toNeighborEntryl, c.next⟩)
      (hother : ∀ q, q ≠ ptr → heap.load q = s.mem.heap.load q) :
      Moves s t (⟨heap, s.mem.head⟩, .idle, [op])
  | latency {a : Ipv6Addr} {lat loss : UInt32} {node ptr : Nat} {c : NeighborCell}
      {heap : Heap NeighborCell} (hpc : s.pc t = .assign (.latency a lat loss) node ptr)
      (hload : s.mem.heap.load ptr = some c)
      (hself : heap.load ptr = some { c with latency := lat })
      (hother : ∀ q, q ≠ ptr → heap.load q = s.mem.heap.load q) :
      Moves s t (⟨heap, s.mem.head⟩, .assignLoss a lat loss node ptr, [])
  | packetLoss {a : Ipv6Addr} {lat loss : UInt32} {node ptr : Nat} {c : NeighborCell}
      {heap : Heap NeighborCell} (hpc : s.pc t = .assignLoss a lat loss node ptr)
      (hload : s.mem.heap.load ptr = some c)
      (hself : heap.load ptr = some { c with packetLoss := loss })
      (hother : ∀ q, q ≠ ptr → heap.load q = s.mem.heap.load q) :
      Moves s t (⟨heap, s.mem.head⟩, .idle, [.latency a lat loss])

/-- A new record. -/
theorem newEntry_eq (m : Mem) (junk : NeighborCell) (e : NeighborEntryl) :
    ∃ heap, m.newEntry (some junk) e = .ok (m.heap.brk, ⟨heap, m.head⟩) ∧
      heap.load m.heap.brk = some ⟨e, none⟩ ∧
      ∀ q, q ≠ m.heap.brk → heap.load q = m.heap.load q := by
  have hload : (m.malloc (some junk)).2.heap.load m.heap.brk = some junk :=
    Heap.load_malloc_self m.heap junk
  obtain ⟨heap, hassign, hself, hother⟩ := assign_eq ⟨e, none⟩ hload
  refine ⟨heap, ?_, hself, fun q hq => ?_⟩
  · show (do return (m.heap.brk, ← (m.malloc (some junk)).2.assign m.heap.brk ⟨e, none⟩)) = _
    rw [hassign]
    rfl
  · rw [hother q hq]
    exact Heap.load_malloc_ne hq

/-- What `link->next = head` writes. -/
theorem link_eq {m : Mem} {node : Nat} {c : NeighborCell} (hnode : m.heap.load node = some c)
    (junk : Option NeighborCell) :
    ∃ heap, (m.malloc junk).2.deref node = .ok c ∧
      (m.malloc junk).2.assign node { c with next := m.head } = .ok ⟨heap, m.head⟩ ∧
      heap.load node = some { c with next := m.head } ∧
      ∀ q, q ≠ node → q ≠ m.heap.brk → heap.load q = m.heap.load q := by
  have hload := load_malloc m junk hnode
  obtain ⟨heap, hassign, hself, hother⟩ := assign_eq { c with next := m.head } hload
  rw [head_malloc] at hassign
  refine ⟨heap, ?_, hassign, hself, fun q hq hbrk => ?_⟩
  · rw [Mem.deref, hload]
    rfl
  · rw [hother q hq]
    cases junk with
    | none => rfl
    | some junk => exact Heap.load_malloc_ne hbrk

/-- A pointer that threads follow is at the end or at an entry. -/
theorem Linked.cell (h : s.Linked) {ptr : Nat} (hptr : s.Leads (some ptr)) :
    ∃ c, s.mem.heap.load ptr = some c := by
  obtain ⟨cells, hlinks, -⟩ := h.leads _ hptr
  cases hlinks with
  | cons hp rest => exact ⟨_, hp⟩

theorem Linked.holds (h : s.Linked) : ∃ l, s.mem.Holds l := by
  obtain ⟨cells, hlinks, -⟩ := h.leads _ .head
  exact ⟨_, cells, hlinks, hlinks.nodup, rfl⟩

/-- The entry at a pointer that a thread follows, and its record. -/
theorem Linked.cell_record (h : s.Linked) {ptr node : Nat} {op : StatOp}
    (hptr : (s.pc t).ptr? = some (some ptr)) (hown : (s.pc t).own? = some (op, node)) :
    ∃ c next, s.mem.heap.load ptr = some c ∧ s.mem.heap.load node = some ⟨op.record, next⟩ := by
  obtain ⟨c, hload⟩ := h.cell (.ptr hptr)
  obtain ⟨next, hrecord⟩ := h.record t op node hown
  exact ⟨c, next, hload, hrecord⟩

/-- **The stores to an entry.** -/
theorem Linked.assign (h : s.Linked) {op : StatOp} {node ptr : Nat}
    (hpc : s.pc t = .assign op node ptr) (junk : Option NeighborCell) :
    ∃ r, (s.pc t).turn junk s.mem = .ok r ∧ s.Moves t r := by
  have hptr : (s.pc t).ptr? = some (some ptr) := by rw [hpc]; rfl
  have hown : (s.pc t).own? = some (op, node) := by rw [hpc]; rfl
  obtain ⟨c, next, hload, hrecord⟩ := h.cell_record hptr hown
  obtain ⟨heap, hassign, hself, hother⟩ :=
    assign_eq { c with toNeighborEntryl := op.store op.record c.toNeighborEntryl } hload
  rw [hpc]
  cases op with
  | latency a lat loss =>
    refine ⟨_, ?_, .latency hpc hload hself hother⟩
    simp only [StorePc.turn, deref_eq hload, deref_eq hrecord, ok_bind, hassign, pure_eq_ok]
  | discover a =>
    refine ⟨_, ?_, .write hpc hload (by simp) hself hother⟩
    simp only [StorePc.turn, deref_eq hload, deref_eq hrecord, ok_bind, hassign, pure_eq_ok]
  | throughput a thr =>
    refine ⟨_, ?_, .write hpc hload (by simp) hself hother⟩
    simp only [StorePc.turn, deref_eq hload, deref_eq hrecord, ok_bind, hassign, pure_eq_ok]

theorem Linked.assignLoss (h : s.Linked) {a : Ipv6Addr} {lat loss : UInt32} {node ptr : Nat}
    (hpc : s.pc t = .assignLoss a lat loss node ptr) (junk : Option NeighborCell) :
    ∃ r, (s.pc t).turn junk s.mem = .ok r ∧ s.Moves t r := by
  have hptr : (s.pc t).ptr? = some (some ptr) := by rw [hpc]; rfl
  have hown : (s.pc t).own? = some (.latency a lat loss, node) := by rw [hpc]; rfl
  obtain ⟨c, next, hload, hrecord⟩ := h.cell_record hptr hown
  obtain ⟨heap, hassign, hself, hother⟩ := assign_eq { c with packetLoss := loss } hload
  refine ⟨_, ?_, .packetLoss hpc hload hself hother⟩
  have hloss : (StatOp.latency a lat loss).record.packetLoss = loss := rfl
  simp only [hpc, StorePc.turn, deref_eq hload, deref_eq hrecord, ok_bind, hloss, hassign,
    pure_eq_ok]

/-- **A turn goes through**, unless it needs a block and there is none. -/
theorem Linked.turn (h : s.Linked) (t : ι) (junk : Option NeighborCell) :
    (∃ r, (s.pc t).turn junk s.mem = .ok r ∧ s.Moves t r) ∨
      junk = none ∧ (s.pc t).turn junk s.mem = .error .null := by
  cases hpc : s.pc t with
  | idle => exact Or.inl ⟨_, rfl, .idle hpc⟩
  | search op node ptr =>
    cases ptr with
    | none =>
      cases node with
      | none =>
        cases junk with
        | none => exact Or.inr ⟨rfl, rfl⟩
        | some junk =>
          obtain ⟨heap, hnew, hself, hother⟩ := newEntry_eq s.mem junk op.record
          refine Or.inl ⟨_, ?_, .discovered hpc hself hother⟩
          simp only [StorePc.turn, hnew, ok_bind, pure_eq_ok]
      | some node => exact Or.inl ⟨_, rfl, .missing hpc⟩
    | some ptr =>
      obtain ⟨c, hload⟩ := h.cell (.ptr (t := t) (by rw [hpc]; rfl))
      by_cases haddr : c.addr = op.addr
      · cases node with
        | none =>
          refine Or.inl ⟨_, ?_, .known hpc hload haddr⟩
          simp only [StorePc.turn, deref_eq hload, ok_bind, if_pos haddr, pure_eq_ok]
        | some node =>
          refine Or.inl ⟨_, ?_, .found hpc hload haddr⟩
          simp only [StorePc.turn, deref_eq hload, ok_bind, if_pos haddr, pure_eq_ok]
      · refine Or.inl ⟨_, ?_, .pass hpc hload haddr⟩
        simp only [StorePc.turn, deref_eq hload, ok_bind, if_neg haddr, pure_eq_ok]
  | link op node =>
    obtain ⟨next, hload⟩ := h.record t op node (by rw [hpc]; rfl)
    obtain ⟨heap, hderef, hassign, hself, hother⟩ := link_eq hload junk
    refine Or.inl ⟨_, ?_, .link hpc hself hother⟩
    have hhead := head_malloc s.mem junk
    simp only [StorePc.turn, hderef, ok_bind, hhead, hassign, pure_eq_ok]
  | publish op node => exact Or.inl ⟨_, rfl, .publish hpc⟩
  | update op node ptr =>
    cases ptr with
    | none => exact Or.inl ⟨_, rfl, .gone hpc⟩
    | some ptr =>
      have hptr : (s.pc t).ptr? = some (some ptr) := by rw [hpc]; rfl
      have hown : (s.pc t).own? = some (op, node) := by rw [hpc]; rfl
      obtain ⟨c, next, hload, hrecord⟩ := h.cell_record hptr hown
      by_cases haddr : c.addr = op.addr
      · refine Or.inl ⟨_, ?_, .same hpc hload haddr⟩
        simp only [StorePc.turn, deref_eq hload, deref_eq hrecord, addr_record, ok_bind,
          if_pos haddr, pure_eq_ok]
      · refine Or.inl ⟨_, ?_, .skip hpc hload haddr⟩
        simp only [StorePc.turn, deref_eq hload, deref_eq hrecord, addr_record, ok_bind,
          if_neg haddr, pure_eq_ok]
  | assign op node ptr =>
    rw [← hpc]
    exact Or.inl (h.assign hpc junk)
  | assignLoss a lat loss node ptr =>
    rw [← hpc]
    exact Or.inl (h.assignLoss hpc junk)

/-- **An operation begins**, unless there is no block for its record. -/
theorem moves_begin (hpc : s.pc t = .idle) (junk : Option NeighborCell) (op : StatOp) :
    (∃ r, StorePc.begin junk s.mem op = .ok r ∧ s.Moves t r) ∨
      junk = none ∧ StorePc.begin junk s.mem op = .error .null := by
  cases op with
  | discover a => exact Or.inl ⟨_, rfl, .look hpc⟩
  | latency a lat loss =>
    cases junk with
    | none => exact Or.inr ⟨rfl, rfl⟩
    | some junk =>
      obtain ⟨heap, hnew, hself, hother⟩ :=
        newEntry_eq s.mem junk (StatOp.latency a lat loss).record
      refine Or.inl ⟨_, ?_, .measured hpc hself hother⟩
      simp only [StorePc.begin, hnew, ok_bind, pure_eq_ok]
  | throughput a thr =>
    cases junk with
    | none => exact Or.inr ⟨rfl, rfl⟩
    | some junk =>
      obtain ⟨heap, hnew, hself, hother⟩ := newEntry_eq s.mem junk (StatOp.throughput a thr).record
      refine Or.inl ⟨_, ?_, .measured hpc hself hother⟩
      simp only [StorePc.begin, hnew, ok_bind, pure_eq_ok]

/-! ## Every link leads to an entry -/

section Links

/-- A thread keeps its record, has none any more, or has allocated one. -/
theorem Moves.own (hmove : s.Moves t r) {op : StatOp} {node : Nat}
    (hown : r.2.1.own? = some (op, node)) :
    (s.pc t).own? = some (op, node) ∨ node = s.mem.heap.brk := by
  cases hmove with
  | idle | look | known | publish | gone | write | packetLoss => cases hown
  | measured | discovered =>
    obtain ⟨rfl, rfl⟩ := Prod.mk.inj (Option.some.inj hown)
    exact Or.inr rfl
  | @pass op node ptr c hpc =>
    left
    rw [hpc]
    cases node with
    | none => cases hown
    | some node => exact hown
  | found hpc | missing hpc | link hpc | skip hpc | same hpc | latency hpc =>
    left
    rw [hpc]
    exact hown

/-- An entry that a thread follows is no record of a thread. -/
theorem Linked.ptr_ne_own (h : s.Linked) {t t' : ι} {ptr node : Nat} {op : StatOp}
    (hptr : (s.pc t).ptr? = some (some ptr)) (hown : (s.pc t').own? = some (op, node)) :
    node ≠ ptr := by
  rintro rfl
  obtain ⟨cells, hlinks, hnot⟩ := h.leads _ (.ptr hptr)
  cases hlinks with
  | cons _ _ => exact hnot t' op node hown List.mem_cons_self

/-- No other thread writes to the record of a thread. -/
theorem Linked.kept (h : s.Linked) (hmove : s.Moves t r) {t' : ι} (ht : t' ≠ t) {op : StatOp}
    {node : Nat} (hown : (s.pc t').own? = some (op, node)) :
    r.1.heap.load node = s.mem.heap.load node := by
  obtain ⟨next, hload⟩ := h.record t' op node hown
  have hbrk : node ≠ s.mem.heap.brk := Nat.ne_of_lt (Heap.load_lt hload)
  cases hmove with
  | idle | look | pass | known | found | missing | publish | gone | skip | same => rfl
  | measured hpc hself hother => exact hother node hbrk
  | discovered hpc hself hother => exact hother node hbrk
  | link hpc hself hother =>
    refine hother node ?_ hbrk
    rintro rfl
    exact ht (h.apart _ _ _ _ _ hown (by rw [hpc]; rfl))
  | write hpc hload' hop hself hother | latency hpc hload' hself hother
  | packetLoss hpc hload' hself hother =>
    exact hother node (h.ptr_ne_own (t := t) (by rw [hpc]; rfl) hown)

/-- The record of a thread after its turn. -/
theorem Linked.own_record (h : s.Linked) (hmove : s.Moves t r) {op : StatOp} {node : Nat}
    (hown : r.2.1.own? = some (op, node)) :
    ∃ next, r.1.heap.load node = some ⟨op.record, next⟩ := by
  cases hmove with
  | idle | look | known | publish | gone | write | packetLoss => cases hown
  | measured hpc hself hother =>
    obtain ⟨rfl, rfl⟩ := Prod.mk.inj (Option.some.inj hown)
    exact ⟨none, hself⟩
  | discovered hpc hself hother =>
    obtain ⟨rfl, rfl⟩ := Prod.mk.inj (Option.some.inj hown)
    exact ⟨none, hself⟩
  | link hpc hself hother =>
    obtain ⟨rfl, rfl⟩ := Prod.mk.inj (Option.some.inj hown)
    exact ⟨_, hself⟩
  | @pass op' node' ptr c hpc =>
    refine h.record t op node ?_
    rw [hpc]
    cases node' with
    | none => cases hown
    | some node' => exact hown
  | found hpc | missing hpc | skip hpc | same hpc =>
    refine h.record t op node ?_
    rw [hpc]
    exact hown
  | latency hpc hload hself hother =>
    have hown' : (s.pc t).own? = some (op, node) := by
      rw [hpc]
      exact hown
    obtain ⟨next, hrecord⟩ := h.record t op node hown'
    refine ⟨next, ?_⟩
    rw [← hrecord]
    exact hother node (h.ptr_ne_own (t := t) (by rw [hpc]; rfl) hown')

/-- The pointers of a thread after its turn. -/
theorem Linked.ptr_after (h : s.Linked) (hmove : s.Moves t r) {p : Option Nat}
    (hp : r.2.1.ptr? = some p) : s.LeadsTo s.mem.heap p := by
  have hnext : ∀ {ptr c}, (s.pc t).ptr? = some (some ptr) → s.mem.heap.load ptr = some c →
      s.LeadsTo s.mem.heap c.next := by
    intro ptr c hptr hload
    obtain ⟨cells, hlinks, hnot⟩ := h.leads _ (.ptr hptr)
    cases hlinks with
    | @cons _ c' rest hq hrest =>
      obtain rfl := Option.some.inj (hload.symm.trans hq)
      refine ⟨rest, hrest, fun t' op node hown hmem => ?_⟩
      exact hnot t' op node hown (List.mem_cons_of_mem _ hmem)
  cases hmove with
  | idle | known | discovered | missing | link | publish | gone | write | packetLoss => cases hp
  | look | measured | found =>
    obtain rfl := Option.some.inj hp
    exact h.leads _ .head
  | pass hpc hload | skip hpc hload =>
    obtain rfl := Option.some.inj hp
    exact hnext (by rw [hpc]; rfl) hload
  | same hpc | latency hpc =>
    obtain rfl := Option.some.inj hp
    exact h.leads _ (.ptr (t := t) (by rw [hpc]; rfl))

/-- The addresses of a list in the memory and of the neighbours. -/
def cellKeys (cells : List (Nat × NeighborCell)) : List (Nat × Ipv6Addr) :=
  cells.map fun x => (x.1, x.2.addr)

theorem map_fst_cellKeys (cells : List (Nat × NeighborCell)) :
    (cellKeys cells).map Prod.fst = cells.map Prod.fst := by
  simp [cellKeys, Function.comp_def]

variable [DecidableEq ι]

@[simp] theorem after_pc_self (s : SharedStats ι) (t : ι) (r : Mem × StorePc × List StatOp) :
    (s.after t r).pc t = r.2.1 := if_pos rfl

theorem after_pc_ne {t' : ι} (h : t' ≠ t) : (s.after t r).pc t' = s.pc t' := if_neg h

theorem Moves.own_after (hmove : s.Moves t r) {t' : ι} {op : StatOp} {node : Nat}
    (hown : ((s.after t r).pc t').own? = some (op, node)) :
    (s.pc t').own? = some (op, node) ∨ (t' = t ∧ node = s.mem.heap.brk) := by
  by_cases ht : t' = t
  · subst ht
    rw [after_pc_self] at hown
    rcases hmove.own hown with hold | hnew
    · exact Or.inl hold
    · exact Or.inr ⟨rfl, hnew⟩
  · rw [after_pc_ne ht] at hown
    exact Or.inl hown

/-- A new record is not behind any pointer. -/
theorem LeadsTo.after {p : Option Nat} (h : s.LeadsTo s.mem.heap p) (hmove : s.Moves t r) :
    (s.after t r).LeadsTo s.mem.heap p := by
  obtain ⟨cells, hlinks, hnot⟩ := h
  refine ⟨cells, hlinks, fun t' op node hown hmem => ?_⟩
  rcases hmove.own_after hown with hold | ⟨-, rfl⟩
  · exact hnot t' op node hold hmem
  · exact Nat.lt_irrefl _ (hlinks.lt_brk hmem)

/-- The pointers after a turn lead to entries that are there before it. -/
theorem Linked.leads_after (h : s.Linked) (hmove : s.Moves t r) {p : Option Nat}
    (hp : (s.after t r).Leads p) : (s.after t r).LeadsTo s.mem.heap p := by
  rcases hp with _ | hptr | ⟨hpublish, hcell⟩
  · have hhead := (h.leads _ .head).after hmove
    cases hmove with
    | @publish op node hpc =>
      have hown : (s.pc t).own? = some (op, node) := by
        rw [hpc]
        rfl
      obtain ⟨next, hload⟩ := h.record t op node hown
      obtain ⟨cells, hlinks, hnot⟩ := (h.leads _ (.next hpc hload)).after (.publish hpc)
      refine ⟨(node, ⟨op.record, next⟩) :: cells, .cons hload hlinks, fun t' op' node' hown' => ?_⟩
      rw [List.map_cons, List.mem_cons, not_or]
      refine ⟨?_, hnot t' op' node' hown'⟩
      rintro rfl
      by_cases ht : t' = t
      · rw [ht, after_pc_self] at hown'
        cases hown'
      · rw [after_pc_ne ht] at hown'
        exact ht (h.apart _ _ _ _ _ hown' hown)
    | _ => exact hhead
  · rename_i t'
    by_cases ht : t' = t
    · rw [ht, after_pc_self] at hptr
      exact (h.ptr_after hmove hptr).after hmove
    · rw [after_pc_ne ht] at hptr
      exact (h.leads _ (.ptr hptr)).after hmove
  · rename_i t' op node c
    by_cases ht : t' = t
    · rw [ht, after_pc_self] at hpublish
      have hhead := (h.leads _ .head).after hmove
      cases hmove with
      | link hpc hself hother =>
        obtain ⟨rfl, rfl⟩ := StorePc.publish.inj hpublish
        obtain rfl := Option.some.inj (hself.symm.trans hcell)
        exact hhead
      | _ => cases hpublish
    · rw [after_pc_ne ht] at hpublish
      have hcell' : r.1.heap.load node = some c := hcell
      rw [h.kept hmove ht (by rw [hpublish]; rfl)] at hcell'
      exact (h.leads _ (.next hpublish hcell')).after hmove

/-- **No turn changes the links or the addresses of entries.** -/
theorem Moves.keeps (hmove : s.Moves t r) {p : Option Nat} {cells : List (Nat × NeighborCell)}
    (hlinks : Links NeighborCell.next s.mem.heap p cells)
    (hnot : ∀ t' op node, ((s.after t r).pc t').own? = some (op, node) →
      node ∉ cells.map Prod.fst) :
    ∃ cells', Links NeighborCell.next r.1.heap p cells' ∧ cellKeys cells' = cellKeys cells := by
  unfold cellKeys
  refine hlinks.rewrite (fun c => c.addr) fun q a hmem => ?_
  have hq := hlinks.load_of_mem hmem
  have hbrk : q ≠ s.mem.heap.brk := Nat.ne_of_lt (Heap.load_lt hq)
  -- a store to an entry keeps its link and its address
  have hstored : ∀ {heap : Heap NeighborCell} {ptr : Nat} {c c' : NeighborCell},
      s.mem.heap.load ptr = some c → heap.load ptr = some c' → c'.next = c.next →
      c'.addr = c.addr → (∀ q, q ≠ ptr → heap.load q = s.mem.heap.load q) →
      ∃ b, heap.load q = some b ∧ b.next = a.next ∧ b.addr = a.addr := by
    intro heap ptr c c' hload hself hnext haddr hother
    by_cases hqp : q = ptr
    · subst hqp
      obtain rfl := Option.some.inj (hload.symm.trans hq)
      exact ⟨_, hself, hnext, haddr⟩
    · exact ⟨a, (hother q hqp).trans hq, rfl, rfl⟩
  cases hmove with
  | idle | look | pass | known | found | missing | publish | gone | skip | same =>
    exact ⟨a, hq, rfl, rfl⟩
  | measured hpc hself hother => exact ⟨a, (hother q hbrk).trans hq, rfl, rfl⟩
  | discovered hpc hself hother => exact ⟨a, (hother q hbrk).trans hq, rfl, rfl⟩
  | @link op node heap hpc hself hother =>
    refine ⟨a, ?_, rfl, rfl⟩
    rw [hother q ?_ hbrk, hq]
    rintro rfl
    exact hnot t op q (by rw [after_pc_self]; rfl) (List.mem_map_of_mem hmem)
  | @write op node ptr c heap hpc hload hop hself hother =>
    exact hstored hload hself rfl (StatOp.addr_write op _) hother
  | latency hpc hload hself hother | packetLoss hpc hload hself hother =>
    exact hstored hload hself rfl rfl hother

/-- **What a thread does keeps the links.** -/
theorem Linked.moved (h : s.Linked) (hmove : s.Moves t r) : (s.after t r).Linked where
  leads := by
    intro p hp
    obtain ⟨cells, hlinks, hnot⟩ := h.leads_after hmove hp
    obtain ⟨cells', hlinks', hkeys⟩ := hmove.keeps hlinks hnot
    refine ⟨cells', hlinks', ?_⟩
    rwa [← map_fst_cellKeys, hkeys, map_fst_cellKeys]
  record := by
    intro t' op node hown
    by_cases ht : t' = t
    · rw [ht, after_pc_self] at hown
      exact h.own_record hmove hown
    · rw [after_pc_ne ht] at hown
      obtain ⟨next, hload⟩ := h.record t' op node hown
      exact ⟨next, (h.kept hmove ht hown).trans hload⟩
  apart := by
    intro t₁ t₂ op₁ op₂ node h₁ h₂
    have hfresh : ∀ {t' op}, (s.pc t').own? ≠ some (op, s.mem.heap.brk) := by
      intro t' op hown
      obtain ⟨next, hload⟩ := h.record t' op _ hown
      exact Nat.lt_irrefl _ (Heap.load_lt hload)
    rcases hmove.own_after h₁ with hold₁ | ⟨rfl, rfl⟩
    · rcases hmove.own_after h₂ with hold₂ | ⟨-, rfl⟩
      · exact h.apart _ _ _ _ _ hold₁ hold₂
      · exact absurd hold₁ hfresh
    · rcases hmove.own_after h₂ with hold₂ | ⟨rfl, -⟩
      · exact absurd hold₂ hfresh
      · rfl

end Links

/-! ## The map of the last results -/

/-- A thread stands between the two stores of a latency result to the entry of the address. -/
def Halfway (s : SharedStats ι) (a : Ipv6Addr) : Prop :=
  ∃ t lat loss node ptr, s.pc t = .assignLoss a lat loss node ptr

/-- The pointer is in the list, with `behind` from it on. -/
def Within (keys : List (Nat × Ipv6Addr)) (ptr : Option Nat) (behind : List (Nat × Ipv6Addr)) :
    Prop :=
  ∃ front, keys = front ++ behind ∧ ptr = behind.head?.map Prod.fst

/-- A loop is in the list, and an update before the entry of its address or at it. -/
def Placed (keys : List (Nat × Ipv6Addr)) : StorePc → Prop
  | .search op node ptr =>
    (∃ behind, Within keys ptr behind) ∧ (node = none → ∃ a, op = .discover a)
  | .update op _ ptr => ∃ behind, Within keys ptr behind ∧ op.addr ∈ behind.map Prod.snd
  | .assign op _ ptr => (ptr, op.addr) ∈ keys
  | .assignLoss a _ _ _ ptr => (ptr, a) ∈ keys
  | .idle | .link _ _ | .publish _ _ => True

/-- The list `cells` is the map of the results of `ops` and of the operations that are done, but for
the entries where one is halfway, and all threads are in it. -/
structure Exact (ops : List StatOp) (s : SharedStats ι) (cells : List (Nat × NeighborCell)) :
    Prop where
  links : Links NeighborCell.next s.mem.heap s.mem.head cells
  store : StoreUpTo s.Halfway (ops ++ s.done) (cells.map (·.2.toNeighborEntryl))
  placed : ∀ t, Placed (cellKeys cells) (s.pc t)

variable {ops : List StatOp} {cells cells' : List (Nat × NeighborCell)}

theorem exact_boot {m : Mem} {l : List NeighborEntryl} (h : Represents m cells l)
    (hs : StoreOf ops l) : (boot ι m).Exact ops cells := by
  refine ⟨h.links, ?_, fun _ => trivial⟩
  rw [h.entries, boot, List.append_nil]
  exact storeOf_upTo hs

theorem Within.append {keys behind : List (Nat × Ipv6Addr)} {ptr : Option Nat}
    (h : Within keys ptr behind) (new : List (Nat × Ipv6Addr)) :
    Within (new ++ keys) ptr behind := by
  obtain ⟨front, rfl, hptr⟩ := h
  exact ⟨new ++ front, by rw [List.append_assoc], hptr⟩

theorem Placed.append {keys : List (Nat × Ipv6Addr)} {pc : StorePc} (h : Placed keys pc)
    (new : List (Nat × Ipv6Addr)) : Placed (new ++ keys) pc := by
  cases pc with
  | search op node ptr =>
    obtain ⟨⟨behind, hwithin⟩, hnode⟩ := h
    exact ⟨⟨behind, hwithin.append new⟩, hnode⟩
  | update op node ptr =>
    obtain ⟨behind, hwithin, hmem⟩ := h
    exact ⟨behind, hwithin.append new, hmem⟩
  | assign op node ptr => exact List.mem_append_right _ h
  | assignLoss a lat loss node ptr => exact List.mem_append_right _ h
  | idle | link op node | publish op node => trivial

/-- The entry at a pointer in the list, and what is behind it. -/
theorem Within.cell {heap : Heap NeighborCell} {p : Option Nat} {ptr : Nat}
    {behind : List (Nat × Ipv6Addr)} (h : Within (cellKeys cells) (some ptr) behind)
    (hlinks : Links NeighborCell.next heap p cells) {c : NeighborCell}
    (hload : heap.load ptr = some c) :
    ∃ front rest, cells = front ++ (ptr, c) :: rest ∧ behind = (ptr, c.addr) :: cellKeys rest ∧
      Within (cellKeys cells) c.next (cellKeys rest) := by
  obtain ⟨front, hkeys, hptr⟩ := h
  obtain ⟨front', behind', rfl, rfl, rfl⟩ := List.map_eq_append_iff.mp hkeys
  cases behind' with
  | nil => cases hptr
  | cons x rest =>
    obtain ⟨q, c'⟩ := x
    obtain rfl : ptr = q := Option.some.inj hptr
    obtain rfl : c' = c := Option.some.inj ((hlinks.load_of_mem (by simp)).symm.trans hload)
    refine ⟨front', rest, rfl, rfl, cellKeys (front' ++ [(ptr, c')]), ?_, ?_⟩
    · simp [cellKeys]
    · rw [hlinks.next_of.eq_head, cellKeys, List.head?_map, Option.map_map]
      rfl

/-- The entry with a key of the list. -/
theorem cell_of_key {heap : Heap NeighborCell} {p : Option Nat} {ptr : Nat} {a : Ipv6Addr}
    (hlinks : Links NeighborCell.next heap p cells) (hkey : (ptr, a) ∈ cellKeys cells)
    {c : NeighborCell} (hload : heap.load ptr = some c) :
    c.addr = a ∧ ∃ front rest, cells = front ++ (ptr, c) :: rest := by
  obtain ⟨⟨q, c'⟩, hmem, heq⟩ := List.mem_map.mp hkey
  obtain ⟨rfl, rfl⟩ := Prod.mk.inj heq
  obtain rfl := Option.some.inj (hload.symm.trans (hlinks.load_of_mem hmem))
  exact ⟨rfl, List.append_of_mem hmem⟩

theorem Exact.head (h : s.Exact ops cells) :
    Within (cellKeys cells) s.mem.head (cellKeys cells) := by
  refine ⟨[], rfl, ?_⟩
  rw [h.links.eq_head, cellKeys, List.head?_map, Option.map_map]
  rfl

section Turns

variable [DecidableEq ι]

/-- Who is halfway after a turn of `t`. -/
theorem Halfway.after {a : Ipv6Addr} (h : s.Halfway a)
    (ht : ∀ lat loss node ptr, s.pc t ≠ .assignLoss a lat loss node ptr) :
    (s.after t r).Halfway a := by
  obtain ⟨t', lat, loss, node, ptr, hpc⟩ := h
  refine ⟨t', lat, loss, node, ptr, ?_⟩
  rw [after_pc_ne]
  · exact hpc
  · rintro rfl
    exact ht lat loss node ptr hpc

/-- **What a turn has to do to keep the map.** -/
theorem Exact.after (h : s.Exact ops cells)
    (hlinks : Links NeighborCell.next r.1.heap r.1.head cells')
    (hstore : StoreUpTo (s.after t r).Halfway (ops ++ (s.done ++ r.2.2))
      (cells'.map (·.2.toNeighborEntryl)))
    (hkeys : ∃ new, cellKeys cells' = new ++ cellKeys cells)
    (hplaced : Placed (cellKeys cells') r.2.1) : (s.after t r).Exact ops cells' where
  links := hlinks
  store := hstore
  placed := by
    intro t'
    by_cases ht : t' = t
    · rw [ht, after_pc_self]
      exact hplaced
    · rw [after_pc_ne ht]
      obtain ⟨new, hnew⟩ := hkeys
      rw [hnew]
      exact (h.placed t').append new

/-- A turn that leaves the list as it is. -/
theorem Exact.same (h : s.Exact ops cells) (hpc : (s.pc t).Whole)
    (hlinks : Links NeighborCell.next r.1.heap r.1.head cells) (hdone : r.2.2 = [])
    (hplaced : Placed (cellKeys cells) r.2.1) : (s.after t r).Exact ops cells := by
  refine h.after hlinks ?_ ⟨[], rfl⟩ hplaced
  rw [hdone, List.append_nil]
  exact h.store.mono fun a hhalf => hhalf.after fun lat loss node ptr => hpc a lat loss node ptr

/-- A turn that stores to the entry at `ptr`, and may be the last one of its operation. -/
theorem Exact.stored (h : s.Exact ops cells) {front rest : List (Nat × NeighborCell)} {ptr : Nat}
    {c c' : NeighborCell} (hcells : cells = front ++ (ptr, c) :: rest)
    (hself : r.1.heap.load ptr = some c') (hother : ∀ q, q ≠ ptr → r.1.heap.load q = s.mem.heap.load q)
    (hhead : r.1.head = s.mem.head) (hnext : c'.next = c.next) (haddr : c'.addr = c.addr)
    (hstore : StoreUpTo (s.after t r).Halfway (ops ++ (s.done ++ r.2.2))
      (front.map (·.2.toNeighborEntryl) ++ c'.toNeighborEntryl :: rest.map (·.2.toNeighborEntryl)))
    (hplaced : Placed (cellKeys cells) r.2.1) :
    (s.after t r).Exact ops (front ++ (ptr, c') :: rest) := by
  subst hcells
  have hkeys : cellKeys (front ++ (ptr, c') :: rest) = cellKeys (front ++ (ptr, c) :: rest) := by
    simp [cellKeys, haddr]
  refine h.after ?_ ?_ ⟨[], by rw [hkeys]; rfl⟩ (hkeys ▸ hplaced)
  · rw [hhead]
    exact h.links.store h.links.nodup hself hother hnext
  · simpa using hstore

/-- A search that finds the address of a neighbour is done. -/
theorem Exact.known (h : s.Exact ops cells) {op : StatOp} {ptr : Nat} {c : NeighborCell}
    (hpc : s.pc t = .search op none (some ptr)) (hload : s.mem.heap.load ptr = some c)
    (haddr : c.addr = op.addr) : (s.after t (s.mem, .idle, [op])).Exact ops cells := by
  have hplaced := h.placed t
  rw [hpc] at hplaced
  obtain ⟨⟨behind, hwithin⟩, hnode⟩ := hplaced
  obtain ⟨a, rfl⟩ := hnode rfl
  obtain ⟨front, rest, rfl, -, -⟩ := hwithin.cell h.links hload
  have hstore := h.store
  rw [List.map_append, List.map_cons] at hstore
  refine h.stored rfl hload (fun _ _ => rfl) rfl rfl rfl ?_ trivial
  rw [← List.append_assoc]
  have hresults := hstore.results c.toNeighborEntryl (by simp)
  rw [haddr] at hresults
  refine hstore.done haddr rfl (fun a _ hhalf => hhalf.after (by simp [hpc])) ?_
  exact hresults.mono fun hhalf => hhalf.after (by simp [hpc])

theorem Exact.publish (h : s.Exact ops cells) (hlinked : s.Linked) {op : StatOp} {node : Nat}
    (hpc : s.pc t = .publish op node) (hrace : (s.pc t).Unraced s.mem) :
    ∃ cells', (s.after t ({ s.mem with head := some node }, .idle, [op])).Exact ops cells' := by
  rw [hpc] at hrace
  obtain ⟨hnext, hexists⟩ := hrace
  obtain ⟨next, hload⟩ := hlinked.record t op node (by rw [hpc]; rfl)
  obtain rfl : next = s.mem.head := by simpa [hload] using hnext
  have hrepresents : Represents s.mem cells (cells.map (·.2.toNeighborEntryl)) :=
    ⟨h.links, h.links.nodup, rfl⟩
  rw [hrepresents.linkedListNodeExists op.addr] at hexists
  have habsent : op.addr ∉ (cells.map (·.2.toNeighborEntryl)).map NeighborEntryl.addr := by
    intro hmem
    rw [if_pos (hasAddr_iff_mem.mpr hmem)] at hexists
    cases hexists
  refine ⟨(node, ⟨op.record, s.mem.head⟩) :: cells,
    h.after (.cons hload h.links) ?_ ⟨[(node, op.addr)], by simp [cellKeys]⟩ trivial⟩
  rw [← List.append_assoc]
  exact (h.store.mono fun a hhalf => hhalf.after (by simp [hpc])).insert habsent

/-- The one store of an update, or the last one. -/
theorem Exact.write (h : s.Exact ops cells) {op : StatOp} {node ptr : Nat} {c : NeighborCell}
    {heap : Heap NeighborCell} (hpc : s.pc t = .assign op node ptr)
    (hload : s.mem.heap.load ptr = some c) (hop : ∀ a lat loss, op ≠ .latency a lat loss)
    (hself : heap.load ptr = some ⟨op.write c.toNeighborEntryl, c.next⟩)
    (hother : ∀ q, q ≠ ptr → heap.load q = s.mem.heap.load q) :
    ∃ cells', (s.after t (⟨heap, s.mem.head⟩, .idle, [op])).Exact ops cells' := by
  have hplaced := h.placed t
  rw [hpc] at hplaced
  obtain ⟨haddr, front, rest, hcells⟩ := cell_of_key h.links hplaced hload
  refine ⟨_, h.stored hcells hself hother rfl rfl (StatOp.addr_write op _) ?_ trivial⟩
  have hstore := h.store
  rw [hcells, List.map_append, List.map_cons] at hstore
  have hresults := hstore.results c.toNeighborEntryl (by simp)
  rw [haddr] at hresults
  rw [← List.append_assoc]
  refine hstore.done haddr (StatOp.addr_write op _)
    (fun a _ hhalf => hhalf.after (by simp [hpc])) ?_
  have hmono := hresults.mono fun hhalf => hhalf.after (r := (⟨heap, s.mem.head⟩, .idle, [op]))
    (t := t) (by simp [hpc])
  cases op with
  | latency a lat loss => exact absurd rfl (hop a lat loss)
  | discover a => exact hmono
  | throughput a thr =>
    refine ⟨?_, hmono.latency⟩
    show { c.toNeighborEntryl with throughput := thr } = _
    rw [hmono.others]
    rfl

/-- The first store of a latency result. -/
theorem Exact.latency (h : s.Exact ops cells) {a : Ipv6Addr} {lat loss : UInt32} {node ptr : Nat}
    {c : NeighborCell} {heap : Heap NeighborCell}
    (hpc : s.pc t = .assign (.latency a lat loss) node ptr) (hload : s.mem.heap.load ptr = some c)
    (hself : heap.load ptr = some { c with latency := lat })
    (hother : ∀ q, q ≠ ptr → heap.load q = s.mem.heap.load q) :
    ∃ cells', (s.after t (⟨heap, s.mem.head⟩, .assignLoss a lat loss node ptr, [])).Exact ops
      cells' := by
  have hplaced := h.placed t
  rw [hpc] at hplaced
  obtain ⟨haddr, front, rest, hcells⟩ := cell_of_key h.links hplaced hload
  refine ⟨_, h.stored hcells hself hother rfl rfl rfl ?_ hplaced⟩
  have hstore := h.store
  rw [hcells, List.map_append, List.map_cons] at hstore
  have hresults := hstore.results c.toNeighborEntryl (by simp)
  rw [List.append_nil]
  refine hstore.replace rfl (fun b _ => ⟨rfl, fun hhalf => hhalf.after (by simp [hpc])⟩)
    (fun b => ?_) ⟨?_, ?_⟩
  · refine (or_iff_left_of_imp ?_).symm
    rintro rfl
    rw [← hstore.mentioned]
    simp
  · exact hresults.with_latency lat
  · -- from here on the thread is halfway
    intro hnot
    refine absurd ⟨t, lat, loss, node, ptr, ?_⟩ hnot
    have haddr' : c.addr = a := haddr
    rw [after_pc_self, haddr']

/-- The second store of a latency result, where the first one is still there. -/
theorem Exact.packetLoss (h : s.Exact ops cells) {a : Ipv6Addr} {lat loss : UInt32}
    {node ptr : Nat} {c : NeighborCell} {heap : Heap NeighborCell}
    (hpc : s.pc t = .assignLoss a lat loss node ptr) (hrace : (s.pc t).Unraced s.mem)
    (hload : s.mem.heap.load ptr = some c)
    (hself : heap.load ptr = some { c with packetLoss := loss })
    (hother : ∀ q, q ≠ ptr → heap.load q = s.mem.heap.load q) :
    ∃ cells', (s.after t (⟨heap, s.mem.head⟩, .idle, [.latency a lat loss])).Exact ops cells' := by
  have hplaced := h.placed t
  rw [hpc] at hplaced hrace
  have hlatency : c.latency = lat := by
    have hfirst : (s.mem.heap.load ptr).map (·.latency) = some lat := hrace
    rw [hload] at hfirst
    exact Option.some.inj hfirst
  obtain ⟨haddr, front, rest, hcells⟩ := cell_of_key h.links hplaced hload
  refine ⟨_, h.stored hcells hself hother rfl rfl rfl ?_ trivial⟩
  have hstore := h.store
  rw [hcells, List.map_append, List.map_cons] at hstore
  have hresults := hstore.results c.toNeighborEntryl (by simp)
  rw [haddr] at hresults
  rw [← List.append_assoc]
  refine hstore.done haddr rfl (fun b hb hhalf => hhalf.after ?_) ?_
  · intro lat' loss' node' ptr' hpc'
    rw [hpc] at hpc'
    exact hb (StorePc.assignLoss.inj hpc').1.symm
  · have hentry : ({ c with packetLoss := loss } : NeighborCell).toNeighborEntryl
        = (StatOp.latency a lat loss).write (lastResults (ops ++ s.done) a) := by
      rw [← hlatency]
      show { c.toNeighborEntryl with packetLoss := loss } = _
      rw [hresults.others]
      rfl
    rw [hentry]
    exact .refl _ _

/-- **What a thread does keeps the map**, as long as what it has found out or stored is still there
when it relies on it. -/
theorem Exact.moved (h : s.Exact ops cells) (hlinked : s.Linked) (hmove : s.Moves t r)
    (hrace : (s.pc t).Unraced s.mem) : ∃ cells', (s.after t r).Exact ops cells' := by
  have hnew : ∀ {heap}, (∀ q, q ≠ s.mem.heap.brk → heap.load q = s.mem.heap.load q) →
      Links NeighborCell.next heap s.mem.head cells :=
    fun hother => h.links.frame fun q hq => hother q (Nat.ne_of_lt (h.links.lt_brk hq))
  have hplaced := h.placed t
  cases hmove with
  | idle hpc => exact ⟨cells, h.same (by simp [StorePc.Whole, hpc]) h.links rfl trivial⟩
  | look hpc =>
    exact ⟨cells, h.same (by simp [StorePc.Whole, hpc]) h.links rfl ⟨⟨_, h.head⟩, fun _ => ⟨_, rfl⟩⟩⟩
  | measured hpc hself hother =>
    exact ⟨cells, h.same (by simp [StorePc.Whole, hpc]) (hnew hother) rfl ⟨⟨_, h.head⟩, by simp⟩⟩
  | pass hpc hload haddr =>
    rw [hpc] at hplaced
    obtain ⟨⟨behind, hwithin⟩, hnode⟩ := hplaced
    obtain ⟨front, rest, -, -, hnext⟩ := hwithin.cell h.links hload
    exact ⟨cells, h.same (by simp [StorePc.Whole, hpc]) h.links rfl ⟨⟨_, hnext⟩, hnode⟩⟩
  | known hpc hload haddr => exact ⟨cells, h.known hpc hload haddr⟩
  | found hpc hload haddr =>
    rw [hpc] at hplaced
    obtain ⟨⟨behind, hwithin⟩, -⟩ := hplaced
    obtain ⟨front, rest, hcells, -, -⟩ := hwithin.cell h.links hload
    refine ⟨cells, h.same (by simp [StorePc.Whole, hpc]) h.links rfl ⟨_, h.head, ?_⟩⟩
    rw [hcells]
    simp [cellKeys, haddr]
  | discovered hpc hself hother =>
    exact ⟨cells, h.same (by simp [StorePc.Whole, hpc]) (hnew hother) rfl trivial⟩
  | missing hpc => exact ⟨cells, h.same (by simp [StorePc.Whole, hpc]) h.links rfl trivial⟩
  | @link op node heap hpc hself hother =>
    have hnot : node ∉ cells.map Prod.fst := by
      obtain ⟨cells', hlinks, hnot⟩ := hlinked.leads _ .head
      rw [h.links.unique hlinks]
      exact hnot t op node (by rw [hpc]; rfl)
    refine ⟨cells, h.same (by simp [StorePc.Whole, hpc]) (h.links.frame fun q hq => ?_) rfl trivial⟩
    refine hother q ?_ (Nat.ne_of_lt (h.links.lt_brk hq))
    rintro rfl
    exact hnot hq
  | publish hpc => exact h.publish hlinked hpc hrace
  | gone hpc =>
    rw [hpc] at hplaced
    obtain ⟨behind, ⟨front, -, hptr⟩, hmem⟩ := hplaced
    cases behind with
    | nil => cases hmem
    | cons x behind => cases hptr
  | skip hpc hload haddr =>
    rw [hpc] at hplaced
    obtain ⟨behind, hwithin, hmem⟩ := hplaced
    obtain ⟨front, rest, -, rfl, hnext⟩ := hwithin.cell h.links hload
    refine ⟨cells, h.same (by simp [StorePc.Whole, hpc]) h.links rfl ⟨_, hnext, ?_⟩⟩
    rw [List.map_cons, List.mem_cons] at hmem
    exact hmem.resolve_left fun heq => haddr heq.symm
  | same hpc hload haddr =>
    rw [hpc] at hplaced
    obtain ⟨behind, hwithin, -⟩ := hplaced
    obtain ⟨front, rest, rfl, -, -⟩ := hwithin.cell h.links hload
    refine ⟨_, h.same (by simp [StorePc.Whole, hpc]) h.links rfl ?_⟩
    simp [Placed, cellKeys, haddr]
  | write hpc hload hop hself hother => exact h.write hpc hload hop hself hother
  | latency hpc hload hself hother => exact h.latency hpc hload hself hother
  | packetLoss hpc hload hself hother => exact h.packetLoss hpc hrace hload hself hother

end Turns

/-! ## Runs -/

section Runs

variable [DecidableEq ι] {s' : SharedStats ι} {e : StoreEvent ι}

/-- **A step is what its thread can do.** -/
theorem Linked.moves (h : s.Linked) (hstep : s.step e = some s') :
    ∃ r, s.Moves e.thread r ∧ s' = s.after e.thread r := by
  cases e with
  | begin t op junk =>
    dsimp only [step] at hstep
    split at hstep
    · next hpc =>
      rcases moves_begin hpc junk op with ⟨r, hr, hmove⟩ | ⟨-, hnull⟩
      · rw [hr] at hstep
        exact ⟨r, hmove, (Option.some.inj hstep).symm⟩
      · rw [hnull] at hstep
        cases hstep
    · cases hstep
  | turn t junk =>
    rcases h.turn t junk with ⟨r, hr, hmove⟩ | ⟨-, hnull⟩
    · rw [step, hr] at hstep
      exact ⟨r, hmove, (Option.some.inj hstep).symm⟩
    · rw [step, hnull] at hstep
      cases hstep

theorem linked_step (h : s.Linked) (hstep : s.step e = some s') : s'.Linked := by
  obtain ⟨r, hmove, rfl⟩ := h.moves hstep
  exact h.moved hmove

/-- The condition on a step is one on where its thread is. -/
theorem Unraced.pc (h : s.Unraced e) (hstep : s.step e = some s') :
    (s.pc e.thread).Unraced s.mem := by
  cases e with
  | begin t op junk =>
    dsimp only [step] at hstep
    split at hstep
    · next hpc =>
      show (s.pc t).Unraced s.mem
      rw [hpc]
      trivial
    · cases hstep
  | turn t junk => exact h

theorem exact_step (hlinked : s.Linked) (hrace : s.Unraced e) (hstep : s.step e = some s')
    (h : s.Exact ops cells) : ∃ cells', s'.Exact ops cells' := by
  have hrace' := hrace.pc hstep
  obtain ⟨r, hmove, rfl⟩ := hlinked.moves hstep
  exact h.moved hlinked hmove hrace'

/--
**The neighbour list among threads.** However the threads take turns, each can always take its next
turn, as long as `malloc` finds a block, and the links stand for a list. If no entry comes between
the two assignments of `linked_list_insert_node`, the address of a new entry is still missing then,
and no other latency comes between the two stores of `linked_list_update_latency`, the list is the
map of the last results, in the order in which the operations are done. While a thread stands between
these two stores, the latency of its entry may be the one that it has stored.
-/
theorem stores_among_threads {m : Mem} {l : List NeighborEntryl} (hm : m.Holds l)
    (hs : StoreOf ops l) (events : List (StoreEvent ι))
    (hrun : run step (boot ι m) events = some s) :
    (∀ t junk, ∃ s', s.step (.turn t (some junk)) = some s') ∧ (∃ l', s.mem.Holds l') ∧
      (Meets step Unraced (boot ι m) events →
        ∃ l', s.mem.Holds l' ∧ StoreUpTo s.Halfway (ops ++ s.done) l' ∧
          ((∀ t, (s.pc t).Whole) → StoreOf (ops ++ s.done) l')) := by
  have hlinked : s.Linked :=
    run_preserves (fun _ _ _ h hstep => linked_step h hstep) (linked_boot hm) hrun
  refine ⟨fun t junk => ?_, hlinked.holds, fun hmeets => ?_⟩
  · rcases hlinked.turn t (some junk) with ⟨r, hr, -⟩ | ⟨hnone, -⟩
    · exact ⟨s.after t r, by rw [step, hr]; rfl⟩
    · cases hnone
  · obtain ⟨cells, hcells⟩ := hm
    have hboth : s.Linked ∧ ∃ cells', s.Exact ops cells' := by
      refine run_invariant (I := fun s => s.Linked ∧ ∃ cells', s.Exact ops cells') ?_ hmeets
        ⟨linked_boot ⟨cells, hcells⟩, cells, exact_boot hcells hs⟩ hrun
      rintro s e s' hrace ⟨hlinked, cells, h⟩ hstep
      exact ⟨linked_step hlinked hstep, exact_step hlinked hrace hstep h⟩
    obtain ⟨-, cells', h⟩ := hboth
    refine ⟨_, ⟨cells', h.links, h.links.nodup, rfl⟩, h.store, fun hwhole => ?_⟩
    refine h.store.storeOf fun a => ?_
    rintro ⟨t, lat, loss, node, ptr, hpc⟩
    exact hwhole t a lat loss node ptr hpc

/-- What a block of `malloc` holds. -/
def smallCell : Option NeighborCell := some ⟨unmeasured 0, none⟩

/-- The shell stores a throughput while the CoAP thread discovers another neighbour. -/
def smallStores : List (StoreEvent Bool) :=
  [.begin false (.throughput 1 7) smallCell,
    .begin true (.discover 2) smallCell, .turn false smallCell, .turn true smallCell,
    .turn true smallCell, .turn true smallCell, .turn false smallCell, .turn false smallCell]

/-- Then the shell stores a latency for a neighbour that is in the list, while the CoAP thread
discovers a third one. -/
def smallUpdates : List (StoreEvent Bool) :=
  [.begin false (.latency 1 5 10) smallCell, .turn false smallCell, .turn false smallCell,
    .turn false smallCell, .turn false smallCell, .begin true (.discover 3) smallCell,
    .turn true smallCell, .turn true smallCell, .turn true smallCell, .turn true smallCell,
    .turn true smallCell, .turn false smallCell]

theorem stores_among_threads_small :
    ∃ s, run step (boot Bool .empty) (smallStores ++ smallUpdates) = some s ∧
      s.done.length = 4 ∧ ∃ l, s.mem.Holds l ∧ StoreOf s.done l := by
  have hrun : ∃ s, run step (boot Bool .empty) (smallStores ++ smallUpdates) = some s ∧
      (s.done.length = 4 ∧ s.pc false = .idle ∧ s.pc true = .idle) :=
    exists_run_of_any (by decide +kernel)
  obtain ⟨s, hs, hdone, hfalse, htrue⟩ := hrun
  obtain ⟨l, hl, -, hstore⟩ := (stores_among_threads Mem.holds_empty storeOf_nil
    (smallStores ++ smallUpdates) hs).2.2 (by decide +kernel)
  refine ⟨s, hs, hdone, l, hl, hstore fun t => ?_⟩
  cases t with
  | false => simp [StorePc.Whole, hfalse]
  | true => simp [StorePc.Whole, htrue]

/-- A thread stands before `head = link`, and its link leads to entries with these keys. -/
def Linking (t : ι) (op : StatOp) (node : Nat) (keys : List (Nat × Ipv6Addr)) (s : SharedStats ι) :
    Prop :=
  s.Linked ∧ s.pc t = .publish op node ∧ ∃ next cells,
    s.mem.heap.load node = some ⟨op.record, next⟩ ∧
      Links NeighborCell.next s.mem.heap next cells ∧ cellKeys cells = keys

variable {op : StatOp} {node : Nat} {keys : List (Nat × Ipv6Addr)}

theorem linking_step (ht : e.thread ≠ t) (h : s.Linking t op node keys)
    (hstep : s.step e = some s') : s'.Linking t op node keys := by
  obtain ⟨hlinked, hpc, next, cells, hload, hcells, hkeys⟩ := h
  obtain ⟨r, hmove, rfl⟩ := hlinked.moves hstep
  obtain ⟨cells₁, hlinks, hnot⟩ := (hlinked.leads _ (.next hpc hload)).after hmove
  obtain rfl := hcells.unique hlinks
  obtain ⟨cells', hcells', hkeys'⟩ := hmove.keeps hcells hnot
  refine ⟨hlinked.moved hmove, ?_, next, cells', ?_, hcells', hkeys'.trans hkeys⟩
  · rw [after_pc_ne ht.symm, hpc]
  · rw [← hload]
    exact hlinked.kept hmove ht.symm (by rw [hpc]; rfl)

/--
**What others put in front is lost.** If a thread has written the link of its entry, then whatever the
other threads do until it writes `head`, the list is afterwards that entry in front of the entries that
were there when the link was written.
-/
theorem insertion_drops {m : Mem} {l₀ l : List NeighborEntryl} (hm : m.Holds l₀)
    (events : List (StoreEvent ι)) (hrun : run step (boot ι m) events = some s)
    (hpc : s.pc t = .publish op node)
    (hlink : (s.mem.heap.load node).map NeighborCell.next = some s.mem.head) (hl : s.mem.Holds l)
    (later : List (StoreEvent ι)) (hothers : ∀ e ∈ later, e.thread ≠ t)
    (hlater : run step s later = some s') (junk : Option NeighborCell) :
    ∃ s'' l', s'.step (.turn t junk) = some s'' ∧ s''.mem.Holds (op.record :: l') ∧
      l'.map NeighborEntryl.addr = l.map NeighborEntryl.addr := by
  have hlinked : s.Linked :=
    run_preserves (fun _ _ _ h hstep => linked_step h hstep) (linked_boot hm) hrun
  obtain ⟨cells, hcells⟩ := hl
  have hlinking : s.Linking t op node (cellKeys cells) := by
    obtain ⟨next, hload⟩ := hlinked.record t op node (by rw [hpc]; rfl)
    obtain rfl : next = s.mem.head := by simpa [hload] using hlink
    exact ⟨hlinked, hpc, _, cells, hload, hcells.links, rfl⟩
  have hmeets : Meets step (fun _ e => e.thread ≠ t) s later := Meets.of_forall hothers
  have hlinking' : s'.Linking t op node (cellKeys cells) :=
    run_invariant (fun _ _ _ ht h hstep => linking_step ht h hstep) hmeets hlinking hlater
  obtain ⟨-, hpc', next, cells', hload, hlinks, hkeys⟩ := hlinking'
  have hall : Links NeighborCell.next s'.mem.heap (some node) ((node, ⟨op.record, next⟩) :: cells') :=
    .cons hload hlinks
  refine ⟨s'.after t ({ s'.mem with head := some node }, .idle, [op]),
    cells'.map (·.2.toNeighborEntryl), ?_, ⟨_, hall, hall.nodup, rfl⟩, ?_⟩
  · rw [step, hpc']
    rfl
  · rw [← hcells.entries, List.map_map, List.map_map]
    have haddr := congrArg (List.map Prod.snd) hkeys
    simpa [cellKeys, Function.comp_def] using haddr

/-- The CoAP thread adds a neighbour between the two assignments of the shell. -/
theorem insertion_drops_small :
    ∃ s s' s'' l', run step (boot Bool .empty) (smallStores.take 4 ++ [.turn false smallCell])
        = some s ∧
      run step s [.turn true smallCell, .turn true smallCell] = some s' ∧
      s'.step (.turn false smallCell) = some s'' ∧
      s''.mem.Holds ((StatOp.throughput 1 7).record :: l') ∧ l'.map NeighborEntryl.addr = [] := by
  have hempty : ∀ heap, Mem.Holds ⟨heap, none⟩ [] :=
    fun heap => ⟨[], .nil, List.nodup_nil, rfl⟩
  obtain ⟨s'', l', hstep, hholds, hsame⟩ := insertion_drops (t := false) Mem.holds_empty
    (smallStores.take 4 ++ [.turn false smallCell]) rfl rfl rfl (hempty _)
    [.turn true smallCell, .turn true smallCell] (by simp [StoreEvent.thread]) rfl smallCell
  exact ⟨_, _, s'', l', rfl, rfl, hstep, hholds, hsame⟩

end Runs

end SharedStats

end Dca
