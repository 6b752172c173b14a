import Dca.Db.Steps
import Dca.Latency.Steps
import Dca.Neighbour.Store
import Dca.Throughput.Network

/-!
# The clients of the neighbour statistics

What the three clients do to the list is one operation of `StatOp` each, so that whatever the
database, the ping thread or a throughput client does, the list stays the map of the last results.
-/

namespace Dca

open CLib

/-- The list is the map of the results of `ops` and of more that have come since. -/
def Extends (ops : List StatOp) (l : List NeighborEntryl) : Prop :=
  ∃ results, StoreOf (ops ++ results) l

theorem Extends.apply {ops : List StatOp} {l : List NeighborEntryl} (h : Extends ops l)
    (op : StatOp) : Extends ops (op.apply l) := by
  obtain ⟨results, hs⟩ := h
  refine ⟨results ++ [op], ?_⟩
  rw [← List.append_assoc]
  exact hs.step op

/-! ## The database -/

theorem foldl_countNeighbour_extends {ops : List StatOp} (ips : List Ipv6Addr) {g : Globals}
    (h : Extends ops g.neighbours) : Extends ops (ips.foldl countNeighbour g).neighbours := by
  induction ips generalizing g with
  | nil => exact h
  | cons ip ips ih =>
    have hip : (countNeighbour g ip).neighbours = (StatOp.discover ip).apply g.neighbours := rfl
    refine ih ?_
    rw [hip]
    exact h.apply _

theorem kept_extends (db : Db) (ops : List StatOp) :
    Kept db (fun g => Extends ops g.neighbours) where
  child := by
    intro c c' h hg
    cases h with
    | dynamic g child flIdx subIdx fn => cases fn <;> exact hg
    | _ => exact hg
  count := by
    intro g ips hg
    exact foldl_countNeighbour_extends ips hg

/-- **Through every history of the database the list is the map of the last results.** -/
theorem history_extends {db : Db} {s s' : Session} {dbOps : List DbOp} (h : History db s dbOps s')
    {ops : List StatOp} (hs : Extends ops s.g.neighbours) : Extends ops s'.g.neighbours :=
  (kept_extends db ops).history h hs

/-! ## The ping thread -/

theorem finish_apply {data : PingData} {l l' : List NeighborEntryl} {res : Nat}
    (h : finish data l = .ok (l', res)) :
    ∃ latency, l' = (StatOp.latency data.host latency data.loss).apply l := by
  obtain ⟨node, hnode, h⟩ := bind_eq_ok.mp h
  obtain ⟨latency, -, hnode⟩ := bind_eq_ok.mp hnode
  obtain rfl := Except.ok.inj hnode
  obtain ⟨rfl, -⟩ := Prod.mk.inj (Except.ok.inj h)
  exact ⟨latency, rfl⟩

variable {cap : Nat} {count : UInt32} {s t : Measure} {e : MeasureEvent}

/-- **A step of the ping thread stores at most one latency result.** -/
theorem neighbours_step [NetIpv6Addr] (h : measureStep cap count s e = some t) :
    t.neighbours = s.neighbours ∨
      ∃ addr latency loss, t.neighbours = (StatOp.latency addr latency loss).apply s.neighbours := by
  have hloop : ∀ u : Measure, u.loopTest.neighbours = u.neighbours := by
    intro u
    obtain ⟨pc, heq, -⟩ := loopTest_eq u
    rw [heq]
  cases measureStep_cases h with
  | finish hpc hfinish =>
    obtain ⟨latency, hl⟩ := finish_apply hfinish
    exact .inr ⟨_, latency, _, hl⟩
  | reply | next | requeue => exact .inl (hloop _)
  | unconfigured | start | arrive | message | fire | last | clean | cleaned => exact .inl rfl

/-- **Through every run of the ping thread the list is the map of the last results.** -/
theorem neighbours_extends [NetIpv6Addr] {ops : List StatOp} (hs : Extends ops s.neighbours)
    {events : List MeasureEvent} (hrun : run (measureStep cap count) s events = some t) :
    Extends ops t.neighbours := by
  refine run_preserves (I := fun s => Extends ops s.neighbours) ?_ hs hrun
  intro s e t hs hstep
  rcases neighbours_step hstep with hsame | ⟨addr, latency, loss, hstored⟩
  · rw [hsame]
    exact hs
  · rw [hstored]
    exact hs.apply _

/-! ## The clients of the throughput server -/

theorem store_apply (x : UdpClient) (addr : Ipv6Addr) :
    (x.store addr).neighbours = (StatOp.throughput addr x.throughput).apply x.neighbours := rfl

/-- A client in a round leaves its list alone. -/
theorem recv_neighbours {x x' : UdpClient} {r : ServerDatagram} (h : x.recv r = some x') :
    x'.neighbours = x.neighbours := by
  unfold UdpClient.recv at h
  dsimp only at h
  split at h
  · split_ifs at h
    all_goals
      obtain rfl := Option.some.inj h
      rfl
  · split_ifs at h
    all_goals
      obtain rfl := Option.some.inj h
      rfl
  · cases h

/-- **A step of the throughput system stores at most one throughput result of a client.** -/
theorem client_neighbours_step [Riot] {addr : Ipv6Addr} {y z : UdpSystem} {e : UdpEvent}
    (h : UdpSystem.step addr y e = some z) (c : SockUdpEp) :
    (z.clients c).neighbours = (y.clients c).neighbours ∨ ∃ throughput,
      (z.clients c).neighbours
        = (StatOp.throughput addr throughput).apply (y.clients c).neighbours := by
  -- a client that keeps its own list changes no list
  have hframe : ∀ (y' : UdpSystem) (c' : SockUdpEp) (x : UdpClient), y'.clients = y.clients →
      x.neighbours = (y.clients c').neighbours →
      ((y'.setClient c' x).clients c).neighbours = (y.clients c).neighbours := by
    intro y' c' x hclients hx
    show UdpClient.neighbours (if c = c' then x else y'.clients c) = _
    split_ifs with hc
    · rw [hx, hc]
    · rw [hclients]
  cases e with
  | serverRecv k now stop =>
    dsimp only [UdpSystem.step] at h
    split at h
    · obtain rfl := Option.some.inj h
      exact .inl rfl
    · obtain rfl := Option.some.inj h
      exact .inl rfl
    · cases h
  | serverError stop =>
    obtain rfl := Option.some.inj h
    exact .inl rfl
  | serverWake =>
    obtain rfl := Option.some.inj h
    exact .inl rfl
  | start c' pad sockUdpSend =>
    dsimp only [UdpSystem.step] at h
    split_ifs at h
    all_goals
      obtain rfl := Option.some.inj h
      exact .inl (hframe _ c' _ rfl rfl)
  | clientRecv c' k =>
    dsimp only [UdpSystem.step] at h
    split at h
    · split_ifs at h
      obtain ⟨x, hx, rfl⟩ := Option.map_eq_some_iff.mp h
      exact .inl (hframe y c' x rfl (recv_neighbours hx))
    · cases h
  | clientSend c' payload =>
    dsimp only [UdpSystem.step] at h
    split at h
    · split_ifs at h
      obtain rfl := Option.some.inj h
      exact .inl (hframe _ c' _ rfl rfl)
    · cases h
  | clientError c' =>
    obtain ⟨x, hx, rfl⟩ := Option.map_eq_some_iff.mp h
    refine .inl (hframe y c' x rfl ?_)
    unfold UdpClient.fail at hx
    split at hx
    all_goals cases hx
    all_goals rfl
  | clientStore c' =>
    dsimp only [UdpSystem.step] at h
    split_ifs at h
    obtain rfl := Option.some.inj h
    by_cases hc : c = c'
    · subst hc
      refine .inr ⟨(y.clients c).throughput, ?_⟩
      rw [← store_apply]
      show UdpClient.neighbours (if c = c then _ else _) = _
      rw [if_pos rfl]
    · refine .inl ?_
      show UdpClient.neighbours (if c = c' then _ else _) = _
      rw [if_neg hc]

/-- **Through every run of the throughput system the list of every client is the map of its last
results.** -/
theorem client_neighbours_extends [Riot] {addr : Ipv6Addr} {y z : UdpSystem} {events : List UdpEvent}
    (c : SockUdpEp) {ops : List StatOp} (hs : Extends ops (y.clients c).neighbours)
    (hrun : run (UdpSystem.step addr) y events = some z) :
    Extends ops (z.clients c).neighbours := by
  refine run_preserves (I := fun y => Extends ops (y.clients c).neighbours) ?_ hs hrun
  intro y e z hs hstep
  rcases client_neighbours_step hstep c with hsame | ⟨throughput, hstored⟩
  · rw [hsame]
    exact hs
  · rw [hstored]
    exact hs.apply _

end Dca
