import Dca.Neighbour.Store

/-!
# The operations on the neighbour list in turns

An operation is cut at its accesses to `head` and to the links and at each of its stores to an entry,
where another thread can come in between. One thread alone does in its turns what the operation does.
-/

namespace Dca

open CLib

/-! ## The operations in turns -/

/-- The record that an operation allocates. -/
def StatOp.record : StatOp → NeighborEntryl
  | discover a => { addr := a, latency := 0, packetLoss := 0, throughput := 0 }
  | latency a lat loss => { addr := a, latency := lat, packetLoss := loss, throughput := 0 }
  | throughput a thr => { addr := a, latency := 0, packetLoss := 0, throughput := thr }

/-- What the first store of the update function of an operation writes from the record into an
entry. -/
def StatOp.store : StatOp → NeighborEntryl → NeighborEntryl → NeighborEntryl
  | discover _, _, e => e
  | latency _ _ _, node, e => { e with latency := node.latency }
  | throughput _ _, node, e => { e with throughput := node.throughput }

@[simp] theorem addr_record (op : StatOp) : op.record.addr = op.addr := by
  cases op <;> rfl

/-- Where a thread is in an operation. -/
inductive StorePc where
  /-- In no operation. -/
  | idle
  /-- Before `while (ptr != NULL)` in `linked_list_node_exists`. A measurement has its record. -/
  | search (op : StatOp) (node ptr : Option Nat)
  /-- Before `link->next = head`. -/
  | link (op : StatOp) (node : Nat)
  /-- Before `head = link`. -/
  | publish (op : StatOp) (node : Nat)
  /-- Before `while (ptr != NULL)` in the update function. -/
  | update (op : StatOp) (node : Nat) (ptr : Option Nat)
  /-- Before the first store to the entry at `ptr`. -/
  | assign (op : StatOp) (node ptr : Nat)
  /-- Before `ptr->packet_loss = node->packet_loss`. -/
  | assignLoss (addr : Ipv6Addr) (latency packetLoss : UInt32) (node ptr : Nat)
  deriving DecidableEq

namespace StorePc

/-- The beginning of an operation, up to the loop of `linked_list_node_exists`. -/
def begin (junk : Option NeighborCell) (m : Mem) : StatOp → Res (Mem × StorePc × List StatOp)
  | .discover a => return (m, .search (.discover a) none m.head, [])
  | op => do
    let (node, m) ← m.newEntry junk op.record
    return (m, .search op (some node) m.head, [])

/-- A turn: up to the next access of `head` or of a link or the next store to an entry, with the
operation if it is done. -/
def turn (junk : Option NeighborCell) (m : Mem) : StorePc → Res (Mem × StorePc × List StatOp)
  | .idle => return (m, .idle, [])
  | .search op node (some ptr) => do
    let c ← m.deref ptr
    if c.addr = op.addr then
      match node with
      | none => return (m, .idle, [op])
      | some node => return (m, .update op node m.head, [])
    else return (m, .search op node c.next, [])
  | .search op none none => do
    let (node, m) ← m.newEntry junk op.record
    return (m, .link op node, [])
  | .search op (some node) none => return (m, .link op node, [])
  | .link op node => do
    let (_, m) := m.malloc junk
    let m ← m.assign node { ← m.deref node with next := m.head }
    return (m, .publish op node, [])
  | .publish op node => return ({ m with head := some node }, .idle, [op])
  | .update op _ none => return (m, .idle, [op])
  | .update op node (some ptr) => do
    let c ← m.deref ptr
    let n ← m.deref node
    if c.addr = n.addr then return (m, .assign op node ptr, [])
    else return (m, .update op node c.next, [])
  | .assign op node ptr => do
    let c ← m.deref ptr
    let n ← m.deref node
    let m ← m.assign ptr
      { c with toNeighborEntryl := op.store n.toNeighborEntryl c.toNeighborEntryl }
    match op with
    | .latency a lat loss => return (m, .assignLoss a lat loss node ptr, [])
    | op => return (m, .idle, [op])
  | .assignLoss a lat loss node ptr => do
    let c ← m.deref ptr
    let n ← m.deref node
    let m ← m.assign ptr { c with packetLoss := n.packetLoss }
    return (m, .idle, [.latency a lat loss])

end StorePc

/-! ## One thread alone -/

theorem deref_eq {m : Mem} {p : Nat} {c : NeighborCell} (h : m.heap.load p = some c) :
    m.deref p = .ok c := by
  rw [Mem.deref, h]
  rfl

namespace StorePc

/-- `n` turns of one thread, with the operations that it has done. -/
def turns (junk : Option NeighborCell) : Nat → Mem × StorePc × List StatOp →
    Res (Mem × StorePc × List StatOp)
  | 0, x => .ok x
  | n + 1, (m, pc, done) => do
    let (m, pc, new) ← pc.turn junk m
    turns junk n (m, pc, done ++ new)

/-- Some turns of one thread. -/
def Comes (junk : Option NeighborCell) (x y : Mem × StorePc × List StatOp) : Prop :=
  ∃ n, turns junk n x = .ok y

variable {junk : Option NeighborCell} {m m' : Mem} {pc pc' : StorePc} {done new : List StatOp}
  {op : StatOp} {node ptr : Nat} {c : NeighborCell} {y : Mem × StorePc × List StatOp}

theorem Comes.refl (x : Mem × StorePc × List StatOp) : Comes junk x x := ⟨0, rfl⟩

theorem Comes.turn (h : pc.turn junk m = .ok (m', pc', new))
    (rest : Comes junk (m', pc', done ++ new) y) : Comes junk (m, pc, done) y := by
  obtain ⟨n, hn⟩ := rest
  refine ⟨n + 1, ?_⟩
  rw [turns, h]
  exact hn

theorem assign_assign (h : m.assign ptr c = .ok m') (c'' : NeighborCell) :
    m'.assign ptr c'' = m.assign ptr c'' := by
  obtain ⟨heap, hstore, h⟩ := bind_eq_ok.mp h
  obtain rfl := Except.ok.inj h
  rw [Mem.assign, Mem.assign, Heap.store_store (inBounds_eq_ok.mp hstore)]

/-- A turn that does not end the operation. -/
theorem Comes.next (h : pc.turn junk m = .ok (m', pc', [])) (rest : Comes junk (m', pc', done) y) :
    Comes junk (m, pc, done) y := by
  refine .turn h ?_
  rw [List.append_nil]
  exact rest

/-- **The loop of `linked_list_node_exists`.** -/
theorem comes_search {p : Option Nat} {cells : List (Nat × NeighborCell)}
    (hlinks : Links NeighborCell.next m.heap p cells) {node : Option Nat}
    (rest : Comes junk
      (m, .search op node ((cells.find? (·.2.addr = op.addr)).map Prod.fst), done) y) :
    Comes junk (m, .search op node p, done) y := by
  induction hlinks with
  | nil => exact rest
  | @cons p c cells hp _ ih =>
    by_cases haddr : c.addr = op.addr
    · rwa [List.find?_cons_of_pos (by simpa using haddr)] at rest
    · rw [List.find?_cons_of_neg (by simpa using haddr)] at rest
      refine .next ?_ (ih rest)
      simp only [StorePc.turn, deref_eq hp, ok_bind, if_neg haddr, pure_eq_ok]

/-- **The loop of the update functions.** -/
theorem comes_update {p : Option Nat} {cells : List (Nat × NeighborCell)}
    (hlinks : Links NeighborCell.next m.heap p cells) {next : Option Nat}
    (hnode : m.heap.load node = some ⟨op.record, next⟩)
    (rest : Comes junk
      (m, .update op node ((cells.find? (·.2.addr = op.addr)).map Prod.fst), done) y) :
    Comes junk (m, .update op node p, done) y := by
  induction hlinks with
  | nil => exact rest
  | @cons p c cells hp _ ih =>
    by_cases haddr : c.addr = op.addr
    · rwa [List.find?_cons_of_pos (by simpa using haddr)] at rest
    · rw [List.find?_cons_of_neg (by simpa using haddr)] at rest
      refine .next ?_ (ih rest)
      simp only [StorePc.turn, deref_eq hp, deref_eq hnode, ok_bind, addr_record, if_neg haddr,
        pure_eq_ok]

/-- **`linked_list_insert_node`.** -/
theorem comes_link (h : m.linkedListInsertNode junk node = .ok m') :
    Comes junk (m, .link op node, done) (m', .idle, done ++ [op]) := by
  have h' : (do
      let c ← (m.malloc junk).2.deref node
      let m₁ ← (m.malloc junk).2.assign node { c with next := (m.malloc junk).2.head }
      return { m₁ with head := some node }) = Except.ok m' := h
  obtain ⟨c, hderef, h'⟩ := bind_eq_ok.mp h'
  obtain ⟨m₁, hassign, h'⟩ := bind_eq_ok.mp h'
  obtain rfl := Except.ok.inj h'
  have hlink : (StorePc.link op node).turn junk m = .ok (m₁, .publish op node, []) := by
    simp only [StorePc.turn, hderef, ok_bind, hassign, pure_eq_ok]
  have hpublish : (StorePc.publish op node).turn junk m₁
      = .ok ({ m₁ with head := some node }, .idle, [op]) := rfl
  exact .next hlink (.turn hpublish (.refl _))

/-- **The stores of an update.** -/
theorem comes_assign {next : Option Nat} (hload : m.heap.load ptr = some c)
    (hnode : m.heap.load node = some ⟨op.record, next⟩) (hne : node ≠ ptr)
    (h : m.assign ptr { c with toNeighborEntryl := op.write c.toNeighborEntryl } = .ok m') :
    Comes junk (m, .assign op node ptr, done) (m', .idle, done ++ [op]) := by
  cases op with
  | discover a =>
    have hturn : (StorePc.assign (.discover a) node ptr).turn junk m
        = .ok (m', .idle, [.discover a]) := by
      have h' : m.assign ptr c = .ok m' := h
      simp only [StorePc.turn, deref_eq hload, deref_eq hnode, ok_bind, StatOp.store, h', pure_eq_ok]
    exact .turn hturn (.refl _)
  | throughput a thr =>
    have hturn : (StorePc.assign (.throughput a thr) node ptr).turn junk m
        = .ok (m', .idle, [.throughput a thr]) := by
      have h' : m.assign ptr { c with throughput := thr } = .ok m' := h
      simp only [StorePc.turn, deref_eq hload, deref_eq hnode, ok_bind, StatOp.store,
        StatOp.record, h', pure_eq_ok]
    exact .turn hturn (.refl _)
  | latency a lat loss =>
    obtain ⟨heap, hassign, hself, hother⟩ := assign_eq { c with latency := lat } hload
    have hnode' : heap.load node = some ⟨(StatOp.latency a lat loss).record, next⟩ :=
      (hother node hne).trans hnode
    have hfirst : (StorePc.assign (.latency a lat loss) node ptr).turn junk m
        = .ok (⟨heap, m.head⟩, .assignLoss a lat loss node ptr, []) := by
      simp only [StorePc.turn, deref_eq hload, deref_eq hnode, ok_bind, StatOp.store,
        StatOp.record, hassign, pure_eq_ok]
    -- the second store is to the entry that the first one has left
    have hboth : (⟨heap, m.head⟩ : Mem).assign ptr { c with latency := lat, packetLoss := loss }
        = .ok m' := by
      rw [← h]
      exact assign_assign hassign _
    have hsecond : (StorePc.assignLoss a lat loss node ptr).turn junk ⟨heap, m.head⟩
        = .ok (m', .idle, [.latency a lat loss]) := by
      have hload' : (⟨heap, m.head⟩ : Mem).heap.load ptr = some { c with latency := lat } := hself
      have hnode'' : (⟨heap, m.head⟩ : Mem).heap.load node
          = some ⟨(StatOp.latency a lat loss).record, next⟩ := hnode'
      simp only [StorePc.turn, deref_eq hload', deref_eq hnode'', ok_bind, StatOp.record, hboth,
        pure_eq_ok]
    exact .next hfirst (.turn hsecond (.refl _))

end StorePc

/-- What an operation with a record does, from the search for its address on. -/
theorem comes_record {m : Mem} {cells : List (Nat × NeighborCell)} {l : List NeighborEntryl}
    (h : Represents m cells l) {junk : Option NeighborCell} {op : StatOp} {node : Nat}
    {update : Mem → Nat → Res (Mem × UInt8)}
    (hupdate : update m node = m.updateFirst op.write op.addr)
    (hnode : m.heap.load node = some ⟨op.record, none⟩) (hnot : node ∉ cells.map Prod.fst)
    {m' : Mem} (hexec : (do
      if (← m.linkedListNodeExists op.addr) = 0 then return (← update m node).1
      else m.linkedListInsertNode junk node) = .ok m') :
    StorePc.Comes junk (m, .search op (some node) m.head, []) (m', .idle, [op]) := by
  refine StorePc.comes_search h.links ?_
  have hptr := findPtr_eq h.links op.addr h.length_lt
  cases hfind : cells.find? (·.2.addr = op.addr) with
  | none =>
    rw [Mem.linkedListNodeExists, hptr, hfind] at hexec
    have hinsert : m.linkedListInsertNode junk node = .ok m' := hexec
    exact .next rfl (StorePc.comes_link hinsert)
  | some x =>
    obtain ⟨ptr, c⟩ := x
    have hmem := List.mem_of_find?_eq_some hfind
    have hload := h.links.load_of_mem hmem
    have haddr : c.addr = op.addr := by simpa using List.find?_some hfind
    rw [hfind] at hptr
    have hexists : m.linkedListNodeExists op.addr = .ok 0 := by
      rw [Mem.linkedListNodeExists, hptr]
      rfl
    have hne : node ≠ ptr := by
      rintro rfl
      exact hnot (List.mem_map_of_mem hmem)
    have hassign : m.assign ptr { c with toNeighborEntryl := op.write c.toNeighborEntryl }
        = .ok m' := by
      rw [hexists, ok_bind, if_pos rfl, hupdate] at hexec
      obtain ⟨⟨m₁, r⟩, hwrite, hexec⟩ := bind_eq_ok.mp hexec
      obtain rfl := Except.ok.inj hexec
      rw [Mem.updateFirst, hptr] at hwrite
      simp only [Option.map_some, ok_bind, deref_eq hload] at hwrite
      obtain ⟨m₂, hassign, hwrite⟩ := bind_eq_ok.mp hwrite
      obtain ⟨rfl, -⟩ := Prod.mk.inj (Except.ok.inj hwrite)
      exact hassign
    have hfound : (StorePc.search op (some node) (some ptr)).turn junk m
        = .ok (m, .update op node m.head, []) := by
      simp only [StorePc.turn, deref_eq hload, ok_bind, if_pos haddr, pure_eq_ok]
    have hsame : (StorePc.update op node (some ptr)).turn junk m
        = .ok (m, .assign op node ptr, []) := by
      simp only [StorePc.turn, deref_eq hload, deref_eq hnode, ok_bind,
        addr_record, if_pos haddr, pure_eq_ok]
    refine .next hfound (StorePc.comes_update h.links hnode ?_)
    rw [hfind]
    exact .next hsame (StorePc.comes_assign hload hnode hne hassign)

theorem update_latency {m : Mem} {node : Nat} {a : Ipv6Addr} {lat loss : UInt32}
    {next : Option Nat} (hnode : m.deref node = .ok ⟨(StatOp.latency a lat loss).record, next⟩) :
    m.linkedListUpdateLatency node = m.updateFirst (StatOp.latency a lat loss).write a := by
  rw [Mem.linkedListUpdateLatency, hnode]
  rfl

theorem update_throughput {m : Mem} {node : Nat} {a : Ipv6Addr} {thr : UInt32} {next : Option Nat}
    (hnode : m.deref node = .ok ⟨(StatOp.throughput a thr).record, next⟩) :
    m.linkedListUpdateThroughput node = m.updateFirst (StatOp.throughput a thr).write a := by
  rw [Mem.linkedListUpdateThroughput, hnode]
  rfl

/-- **The turns of one thread alone do what the operation does.** -/
theorem exec_turns {m : Mem} {l : List NeighborEntryl} (h : m.Holds l) (junk : NeighborCell)
    (op : StatOp) :
    ∃ m' x, op.exec (some junk) m = .ok m' ∧ StorePc.begin (some junk) m op = .ok x ∧
      StorePc.Comes (some junk) x (m', .idle, [op]) := by
  obtain ⟨m', hexec, -⟩ := h.exec junk op
  obtain ⟨cells, h⟩ := h
  cases op with
  | discover a =>
    refine ⟨m', _, hexec, rfl, StorePc.comes_search h.links ?_⟩
    have hptr := findPtr_eq h.links a h.length_lt
    show StorePc.Comes _ (m, .search (.discover a) none
      ((cells.find? (·.2.addr = a)).map Prod.fst), []) _
    cases hfind : cells.find? (·.2.addr = a) with
    | none =>
      have hexists : m.linkedListNodeExists a = .ok 1 := by
        rw [Mem.linkedListNodeExists, hptr, hfind]
        rfl
      rw [StatOp.exec, Mem.netifNodeAddList, hexists, ok_bind, if_pos (by decide)] at hexec
      obtain ⟨⟨node, m₁⟩, hnew, hinsert⟩ := bind_eq_ok.mp hexec
      have hturn : (StorePc.search (.discover a) none none).turn (some junk) m
          = .ok (m₁, .link (.discover a) node, []) := by
        have hnew' : m.newEntry (some junk) (StatOp.discover a).record = .ok (node, m₁) := hnew
        simp only [StorePc.turn, hnew', ok_bind, pure_eq_ok]
      exact .next hturn (StorePc.comes_link hinsert)
    | some x =>
      obtain ⟨ptr, c⟩ := x
      have hexists : m.linkedListNodeExists a = .ok 0 := by
        rw [Mem.linkedListNodeExists, hptr, hfind]
        rfl
      rw [StatOp.exec, Mem.netifNodeAddList, hexists, ok_bind, if_neg (by decide)] at hexec
      obtain rfl : m = m' := Except.ok.inj hexec
      have hload := h.links.load_of_mem (List.mem_of_find?_eq_some hfind)
      have haddr : c.addr = a := by simpa using List.find?_some hfind
      have hturn : (StorePc.search (.discover a) none (some ptr)).turn (some junk) m
          = .ok (m, .idle, [.discover a]) := by
        have haddr' : c.addr = (StatOp.discover a).addr := haddr
        simp only [StorePc.turn, deref_eq hload, ok_bind, if_pos haddr', pure_eq_ok]
      exact .turn hturn (.refl _)
  | latency a lat loss =>
    obtain ⟨node, m₁, hnew, h₁, hnode, hnot⟩ :=
      h.newEntry junk (StatOp.latency a lat loss).record
    have hload : m₁.heap.load node = some ⟨(StatOp.latency a lat loss).record, none⟩ := by
      simpa [Mem.deref] using hnode
    refine ⟨m', (m₁, .search (.latency a lat loss) (some node) m₁.head, []), hexec, ?_, ?_⟩
    · simp only [StorePc.begin, hnew, ok_bind, pure_eq_ok]
    · obtain ⟨⟨node', m₁'⟩, hnew', hexec⟩ := bind_eq_ok.mp hexec
      obtain ⟨rfl, rfl⟩ := Prod.mk.inj (Except.ok.inj (hnew.symm.trans hnew'))
      exact comes_record h₁ (update_latency hnode) hload hnot hexec
  | throughput a thr =>
    obtain ⟨node, m₁, hnew, h₁, hnode, hnot⟩ :=
      h.newEntry junk (StatOp.throughput a thr).record
    have hload : m₁.heap.load node = some ⟨(StatOp.throughput a thr).record, none⟩ := by
      simpa [Mem.deref] using hnode
    refine ⟨m', (m₁, .search (.throughput a thr) (some node) m₁.head, []), hexec, ?_, ?_⟩
    · simp only [StorePc.begin, hnew, ok_bind, pure_eq_ok]
    · obtain ⟨⟨node', m₁'⟩, hnew', hexec⟩ := bind_eq_ok.mp hexec
      obtain ⟨rfl, rfl⟩ := Prod.mk.inj (Except.ok.inj (hnew.symm.trans hnew'))
      exact comes_record h₁ (update_throughput hnode) hload hnot hexec

/-! ## The map while an operation is halfway -/

/-- The entry has these results, except for the latency where an operation is halfway. -/
structure UpTo (half : Ipv6Addr → Prop) (results e : NeighborEntryl) : Prop where
  others : e = { results with latency := e.latency }
  latency : ¬ half e.addr → e.latency = results.latency

/-- The list holds each address that the operations mention once, with its last results, except for
the latency where an operation is halfway. -/
structure StoreUpTo (half : Ipv6Addr → Prop) (ops : List StatOp) (l : List NeighborEntryl) :
    Prop where
  nodup : (l.map NeighborEntryl.addr).Nodup
  mentioned : ∀ a, a ∈ l.map NeighborEntryl.addr ↔ a ∈ ops.map StatOp.addr
  results : ∀ e ∈ l, UpTo half (lastResults ops e.addr) e

section UpTo

variable {half half' : Ipv6Addr → Prop} {ops ops' : List StatOp} {l : List NeighborEntryl}
  {results e e' : NeighborEntryl}

theorem UpTo.refl (half : Ipv6Addr → Prop) (e : NeighborEntryl) : UpTo half e e :=
  ⟨rfl, fun _ => rfl⟩

theorem UpTo.eq (h : UpTo half results e) (hnot : ¬ half e.addr) : e = results := by
  have hlatency := h.latency hnot
  have hothers := h.others
  rw [hlatency] at hothers
  exact hothers

theorem UpTo.with_latency (h : UpTo half results e) (lat : UInt32) :
    { e with latency := lat } = { results with latency := lat } := by
  rw [h.others]

theorem UpTo.mono (h : UpTo half results e) (himp : half e.addr → half' e.addr) :
    UpTo half' results e :=
  ⟨h.others, fun hnot => h.latency fun hhalf => hnot (himp hhalf)⟩

theorem StoreUpTo.mono (h : StoreUpTo half ops l) (himp : ∀ a, half a → half' a) :
    StoreUpTo half' ops l :=
  ⟨h.nodup, h.mentioned, fun e he => (h.results e he).mono (himp _)⟩

theorem storeOf_upTo (h : StoreOf ops l) : StoreUpTo half ops l := by
  refine ⟨h.nodup, h.mentioned, fun e he => ?_⟩
  rw [← h.eq_lastResults he]
  exact .refl half e

/-- **Where no operation is halfway the list is the map of the last results.** -/
theorem StoreUpTo.storeOf (h : StoreUpTo half ops l) (hnone : ∀ a, ¬ half a) : StoreOf ops l := by
  have hresults : ∀ e ∈ l, e = lastResults ops e.addr :=
    fun e he => (h.results e he).eq (hnone _)
  refine ⟨h.nodup, h.mentioned, fun e he => ?_, fun e he => ?_⟩
  · rw [hresults e he]
    rfl
  · rw [hresults e he]
    rfl

/-- **One entry changes.** -/
theorem StoreUpTo.replace {front behind : List NeighborEntryl}
    (h : StoreUpTo half ops (front ++ e :: behind)) (haddr : e'.addr = e.addr)
    (hother : ∀ a, a ≠ e.addr → lastResults ops' a = lastResults ops a ∧ (half a → half' a))
    (hmentioned : ∀ a, a ∈ ops'.map StatOp.addr ↔ a ∈ ops.map StatOp.addr ∨ a = e.addr)
    (hself : UpTo half' (lastResults ops' e.addr) e') :
    StoreUpTo half' ops' (front ++ e' :: behind) := by
  have haddrs : (front ++ e' :: behind).map NeighborEntryl.addr
      = (front ++ e :: behind).map NeighborEntryl.addr := by
    simp [haddr]
  refine ⟨haddrs ▸ h.nodup, fun a => ?_, fun x hx => ?_⟩
  · rw [haddrs, h.mentioned, hmentioned]
    refine (or_iff_left_of_imp ?_).symm
    rintro rfl
    rw [← h.mentioned]
    simp
  · have hnodup := h.nodup
    rw [List.map_append, List.map_cons, List.nodup_append, List.nodup_cons] at hnodup
    have hold : ∀ x ∈ front ++ e :: behind, x.addr ≠ e.addr →
        UpTo half' (lastResults ops' x.addr) x := by
      intro x hx hne
      obtain ⟨hlast, himp⟩ := hother x.addr hne
      rw [hlast]
      exact (h.results x hx).mono himp
    rcases List.mem_append.mp hx with hx | hx
    · refine hold x (List.mem_append_left _ hx) fun heq => ?_
      exact hnodup.2.2 _ (List.mem_map_of_mem hx) _ List.mem_cons_self heq
    · rcases List.mem_cons.mp hx with rfl | hx
      · rw [haddr]
        exact hself
      · refine hold x (List.mem_append_right _ (List.mem_cons_of_mem _ hx)) fun heq => ?_
        exact hnodup.2.1.1 (heq ▸ List.mem_map_of_mem hx)

/-- **An operation is done**, which has written to the entry of its address. -/
theorem StoreUpTo.done {front behind : List NeighborEntryl} {op : StatOp}
    (h : StoreUpTo half ops (front ++ e :: behind)) (haddr : e.addr = op.addr)
    (hsame : e'.addr = e.addr) (himp : ∀ a, a ≠ op.addr → half a → half' a)
    (hself : UpTo half' (op.write (lastResults ops op.addr)) e') :
    StoreUpTo half' (ops ++ [op]) (front ++ e' :: behind) := by
  refine h.replace hsame (fun a ha => ?_) (fun a => ?_) ?_
  · rw [haddr] at ha
    exact ⟨lastResults_concat_ne ops ha, himp a ha⟩
  · simp [haddr]
  · rw [haddr, lastResults_concat]
    exact hself

theorem write_unmeasured (op : StatOp) : op.write (unmeasured op.addr) = op.record := by
  cases op <;> rfl

/-- **A new entry comes in front.** -/
theorem StoreUpTo.insert (h : StoreUpTo half ops l) {op : StatOp}
    (habsent : op.addr ∉ l.map NeighborEntryl.addr) :
    StoreUpTo half (ops ++ [op]) (op.record :: l) := by
  have habsent' : op.addr ∉ ops.map StatOp.addr := by rwa [← h.mentioned]
  refine ⟨?_, fun a => ?_, fun e he => ?_⟩
  · rw [List.map_cons, List.nodup_cons, addr_record]
    exact ⟨habsent, h.nodup⟩
  · rw [List.map_cons, List.mem_cons, addr_record, h.mentioned, List.map_append, List.mem_append,
      List.map_singleton, List.mem_singleton, or_comm]
  · rcases List.mem_cons.mp he with rfl | he
    · rw [addr_record, lastResults_concat, lastResults_of_not_mem habsent', write_unmeasured]
      exact .refl half _
    · rw [lastResults_concat_ne]
      · exact h.results e he
      · rintro heq
        exact habsent (heq ▸ List.mem_map_of_mem he)

end UpTo

end Dca
