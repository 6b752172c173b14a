import Dca.Db.Calls
import Dca.Db.Report
import Mathlib.Data.List.Perm.Subperm

/-!
# The position in the neighbour list

`_num_neighbours` is the number of an entry of the neighbour list, counted from 1. It is set to the
size of a neighbour cache when `num_neighbours` is read, after every address of the cache has been
put into the list, and `get_next_child` counts it down. Level 1 of `_netif_node_getnext_child`
compares it with 0 first. Level 0 does not, and so a measurement that has been held until the
neighbours were used up takes it below 0 (`StaysAbove`).
-/

namespace Dca

open CLib

/-! ## Counting neighbours -/

/-- Each neighbour cache holds pairwise different addresses. -/
def Env.CachesDistinct (env : Env) : Prop := ∀ id, (env.nibNc id).Nodup

theorem addr_mem_countNeighbour (g : Globals) (ip : Ipv6Addr) {a : Ipv6Addr}
    (h : a = ip ∨ a ∈ g.neighbours.map (·.addr)) :
    a ∈ (countNeighbour g ip).neighbours.map (·.addr) := by
  unfold countNeighbour netifNodeAddList
  dsimp only
  by_cases hhas : hasAddr g.neighbours ip = true
  · rw [if_pos hhas]
    rcases h with rfl | h
    · simpa [hasAddr] using hhas
    · exact h
  · rw [if_neg hhas, insertEntry, List.map_cons]
    rcases h with rfl | h
    · exact List.mem_cons_self
    · exact List.mem_cons_of_mem _ h

/-- After counting, the addresses that were counted are in the list. -/
theorem subset_foldl_countNeighbour (ips : List Ipv6Addr) (g : Globals) :
    ips ⊆ (ips.foldl countNeighbour g).neighbours.map (·.addr) ∧
      g.neighbours.map (·.addr) ⊆ (ips.foldl countNeighbour g).neighbours.map (·.addr) := by
  induction ips generalizing g with
  | nil => exact ⟨List.nil_subset _, List.Subset.refl _⟩
  | cons ip ips ih =>
    obtain ⟨hips, hold⟩ := ih (countNeighbour g ip)
    refine ⟨List.cons_subset.mpr ⟨?_, hips⟩, ?_⟩
    · exact hold (addr_mem_countNeighbour g ip (Or.inl rfl))
    · intro a ha
      exact hold (addr_mem_countNeighbour g ip (Or.inr ha))

/-! ## The invariant -/

/-- The number is that of an entry, or 0. -/
def InList (g : Globals) : Prop := g.numNeighbours.toNat ≤ g.neighbours.length

theorem inList_count {ips : List Ipv6Addr} (hnd : ips.Nodup) (g : Globals) :
    InList (ips.foldl countNeighbour { g with numNeighbours := 0 }) := by
  have hsub := (subset_foldl_countNeighbour ips { g with numNeighbours := 0 }).1
  have hlen := (hnd.subperm hsub).length_le
  rw [List.length_map] at hlen
  have hnum := congrArg UInt8.toNat (numNeighbours_foldl ips { g with numNeighbours := 0 })
  simp only [UInt8.zero_add, UInt8.toNat_ofNat'] at hnum
  have hmod : ips.length % 2 ^ 8 ≤ ips.length := Nat.mod_le _ _
  unfold InList
  omega

/-- Where the number is in the list, no link is missing. -/
theorem InList.readIp {g : Globals} (h : InList g) {n : Nat} (env : Env) (b : Buf n) :
    readIp env g.neighbours g.numNeighbours b ≠ .error .null := by
  have hle : g.numNeighbours.toNat - 1 ≤ g.neighbours.length := by
    have : g.numNeighbours.toNat ≤ g.neighbours.length := h
    omega
  unfold Dca.readIp
  split_ifs
  · simp
  · rw [stepLinks_of_le hle, ok_bind]
    cases g.neighbours.drop (g.numNeighbours.toNat - 1) with
    | nil => simp
    | cons e rest =>
      dsimp only
      cases b.strcpy (env.ipv6AddrToStr e.addr) <;> simp [inBounds]

theorem InList.readSubField {g : Globals} (h : InList g) (sub : UInt8) :
    ∃ v, readSubField g.neighbours sub g.numNeighbours = .ok v := by
  have hle : g.numNeighbours.toNat - 1 ≤ g.neighbours.length := by
    have : g.numNeighbours.toNat ≤ g.neighbours.length := h
    omega
  unfold Dca.readSubField
  split_ifs
  · exact ⟨1, rfl⟩
  · rw [stepLinks_of_le hle, ok_bind]
    cases g.neighbours.drop (g.numNeighbours.toNat - 1) with
    | nil => exact ⟨1, rfl⟩
    | cons e rest => exact ⟨e.subField sub, rfl⟩

/-! ## Counting down -/

/-- The call that would count below 0: a measurement behind the last one, with no neighbour left. -/
def BelowZero (g : Globals) : DbNode → Prop
  | .netif _ .qos => g.numNeighbours = 0 ∧ ¬ g.netifSubFieldCount < qosCount
  | _ => False

instance (g : Globals) (node : DbNode) : Decidable (BelowZero g node) :=
  match node with
  | .netif _ .qos =>
    inferInstanceAs (Decidable (g.numNeighbours = 0 ∧ ¬ g.netifSubFieldCount < qosCount))
  | .netif _ .root | .netif _ .iface | .netif _ .field | .netif _ .neighbour
  | .null | .root _ | .fl _ _ _ | .ps _ _ | .saul _ _ => inferInstanceAs (Decidable False)

/-- The number stays, or it goes down by one and was not 0. -/
def CountsDown (g g' : Globals) : Prop :=
  g'.numNeighbours = g.numNeighbours ∨
    (g.numNeighbours ≠ 0 ∧ g'.numNeighbours = g.numNeighbours - 1)

variable {db : Db}

theorem countsDown_netifNextNeighbour {g : Globals} {child : DbNode} {iface : Option Nat}
    {level : NetifLevel} (hne : g.numNeighbours ≠ 0) {c' : Cursor}
    (h : netifNextNeighbour (netifGetnextChildDepth db.env 1) ⟨g, .netif iface level, child⟩ iface
      = .ok c') : CountsDown g c'.g := by
  dsimp only [netifNextNeighbour] at h
  split_ifs at h with hzero
  · obtain rfl := Except.ok.inj h
    exact Or.inr ⟨hne, rfl⟩
  · have hpos : ¬ g.numNeighbours - 1 ≤ 0 := fun hle => hzero (UInt8.le_zero_iff.mp hle)
    simp only [netifGetnextChildDepth, netifGetnextChildBody, if_neg hpos, if_true] at h
    obtain rfl := Except.ok.inj h
    exact Or.inr ⟨hne, rfl⟩

theorem countsDown_below {g : Globals} {child : DbNode} {iface : Option Nat} {level : NetifLevel}
    (below : level = .neighbour ∨ level = .qos) {c' : Cursor}
    (h : netifNodeGetnextChild db.env ⟨g, .netif iface level, child⟩ = .ok c')
    (hz : ¬ BelowZero g (.netif iface level)) : CountsDown g c'.g := by
  rw [netifNodeGetnextChild, netifGetnextChildDepth] at h
  rcases below with rfl | rfl
  · simp only [netifGetnextChildBody] at h
    split_ifs at h with hn
    · obtain rfl := Except.ok.inj h
      exact Or.inl rfl
    · obtain rfl := Except.ok.inj h
      exact Or.inl rfl
    · obtain rfl := Except.ok.inj h
      exact Or.inl rfl
    · exact countsDown_netifNextNeighbour (fun hzero => hn (UInt8.le_zero_iff.mpr hzero)) h
  · simp only [netifGetnextChildBody] at h
    split_ifs at h with hmore
    · obtain rfl := Except.ok.inj h
      exact Or.inl rfl
    · obtain rfl := Except.ok.inj h
      exact Or.inl rfl
    · exact countsDown_netifNextNeighbour (fun hzero => hz ⟨hzero, hmore⟩) h

/-- **A call that does not go below 0 counts down.** -/
theorem countsDown_next {c c' : Cursor} (h : dbNodeGetNextChild db c = .ok c')
    (hz : ¬ BelowZero c.g c.node) : CountsDown c.g c'.g := by
  cases childStep_of_ok h with
  | dynamic g child flIdx subIdx f => cases f <;> exact Or.inl rfl
  | lastNeighbour g child iface level below => exact countsDown_below below h hz
  | nextNeighbour g child iface level below => exact countsDown_below below h hz
  | _ => exact Or.inl rfl

theorem CountsDown.inList {g g' : Globals} (h : CountsDown g g') (hin : InList g)
    (hnb : g'.neighbours = g.neighbours) : InList g' := by
  unfold InList at hin ⊢
  rw [hnb]
  rcases h with heq | ⟨hne, heq⟩
  · rw [heq]
    exact hin
  · have hpos : g.numNeighbours.toNat ≠ 0 := fun hzero => hne (UInt8.toNat_inj.mp hzero)
    have hone : (1 : UInt8) ≤ g.numNeighbours := UInt8.le_iff_toNat_le.mpr (Nat.pos_of_ne_zero hpos)
    rw [heq, UInt8.toNat_sub_of_le _ _ hone]
    omega

theorem neighbours_of_childStep {c c' : Cursor} (h : ChildStep db c c') :
    c'.g.neighbours = c.g.neighbours := by
  cases h with
  | dynamic g child flIdx subIdx f => cases f <;> rfl
  | _ => rfl

theorem next_neighbours {c c' : Cursor} (h : dbNodeGetNextChild db c = .ok c') :
    c'.g.neighbours = c.g.neighbours := neighbours_of_childStep (childStep_of_ok h)

/-! ## Runs -/

/-- Changes of the kernel keep the caches free of duplicates. -/
def Call.CachesDistinct : Call → Prop
  | .kernel env => env.CachesDistinct
  | _ => True

/-- The call does not take the number below 0. -/
def StaysAbove (s : System) : Call → Prop
  | .getNextChild i _ _ => ¬ BelowZero s.g (s.vars i)
  | _ => True

instance (s : System) (call : Call) : Decidable (StaysAbove s call) := by
  unfold StaysAbove
  split <;> infer_instance

/-- Taking a child does not make the number larger. -/
def NoUnderflow (index : List DbFlEntry) (s : System) : Call → Prop
  | .getNextChild i j h => ∀ t ∈ s.step index (.getNextChild i j h),
    t.g.numNeighbours ≤ s.g.numNeighbours
  | _ => True

/-- The number is in the list, so that reading at it follows no NULL link. -/
structure PositionSafe (s : System) : Prop where
  inList : s.g.numNeighbours.toNat ≤ s.g.neighbours.length
  readIp : ∀ (n : Nat) (b : Buf n),
    readIp s.env s.g.neighbours s.g.numNeighbours b ≠ .error .null
  readSubField : ∀ sub, readSubField s.g.neighbours sub s.g.numNeighbours ≠ .error .null

variable {index : List DbFlEntry}

/-- The invariant of the runs. -/
structure Positioned (s : System) : Prop where
  caches : s.env.CachesDistinct
  inList : InList s.g

theorem Positioned.safe {s : System} (h : Positioned s) : PositionSafe s where
  inList := h.inList
  readIp := fun _ b => h.inList.readIp s.env b
  readSubField := by
    intro sub
    obtain ⟨v, hv⟩ := h.inList.readSubField sub
    rw [hv]
    simp

theorem Positioned.intValue {s : System} (h : Positioned s) {node : DbNode} {g : Globals} {v : Int}
    (hv : dbNodeGetIntValue (s.db index) s.g node = .ok (g, v)) : InList g := by
  rw [intValue_afterValue hv]
  rcases afterValue_cases (s.db index).env s.g node with hsame | ⟨id, hcount⟩
  · rw [hsame]
    exact h.inList
  · rw [hcount]
    exact inList_count (h.caches id) s.g

theorem store_length (op : StatOp) (l : List NeighborEntryl) : l.length ≤ (op.apply l).length := by
  obtain ⟨new, hnew⟩ := apply_order l op
  have hlen := congrArg List.length hnew
  rw [List.length_append, List.length_map, List.length_map] at hlen
  omega

/-- **Every call that stays above 0 keeps the number in the list.** -/
theorem Positioned.exec {s t : System} {call : Call} (h : Positioned s)
    (hcaches : call.CachesDistinct) (habove : StaysAbove s call)
    (hcall : s.exec index call = .ok t) : Positioned t := by
  cases call with
  | declare i junk | getRoot i | copy i j =>
    obtain rfl := Except.ok.inj hcall
    exact ⟨h.caches, h.inList⟩
  | getNextChild i j _ =>
    obtain ⟨c, hc, hcall⟩ := bind_eq_ok.mp hcall
    obtain rfl := Except.ok.inj hcall
    exact ⟨h.caches, (countsDown_next hc habove).inList h.inList (next_neighbours hc)⟩
  | getName i name =>
    obtain ⟨_, -, hcall⟩ := bind_eq_ok.mp hcall
    obtain rfl := Except.ok.inj hcall
    exact h
  | getIntValue i =>
    obtain ⟨⟨g, v⟩, hv, hcall⟩ := bind_eq_ok.mp hcall
    obtain rfl := Except.ok.inj hcall
    exact ⟨h.caches, h.intValue hv⟩
  | valueToStr i n buf =>
    obtain ⟨⟨g, b, r⟩, hv, hcall⟩ := bind_eq_ok.mp hcall
    obtain rfl := Except.ok.inj hcall
    refine ⟨h.caches, ?_⟩
    rcases valueToStr_cases hv with ⟨v, hv⟩ | ⟨rfl, -⟩
    · exact h.intValue hv
    · exact h.inList
  | kernel env =>
    obtain rfl := Except.ok.inj hcall
    exact ⟨hcaches, h.inList⟩
  | store op =>
    obtain rfl := Except.ok.inj hcall
    exact ⟨h.caches, Nat.le_trans h.inList (store_length op s.g.neighbours)⟩

/-- What a run from the start leads to, and each call on the way. -/
structure PositionLaw (index : List DbFlEntry) (env : Env) (calls : List Call) (s : System) :
    Prop where
  safe : PositionSafe s
  noUnderflow : Meets (System.step index) (NoUnderflow index) (.boot env) calls

theorem Positioned.boot {env : Env} (h : env.CachesDistinct) : Positioned (.boot env) :=
  ⟨h, Nat.zero_le _⟩

/-- A call that counts down from a number that is not 0 does not underflow. -/
theorem noUnderflow_of_staysAbove (s : System) (call : Call) (h : StaysAbove s call) :
    NoUnderflow index s call := by
  cases call with
  | getNextChild i j hij =>
    intro t ht
    obtain ⟨c, hc, ht⟩ := bind_eq_ok.mp (System.step_eq_some.mp ht)
    obtain rfl := Except.ok.inj ht
    show c.g.numNeighbours ≤ s.g.numNeighbours
    rcases countsDown_next hc h with heq | ⟨hne, heq⟩
    · exact UInt8.le_iff_toNat_le.mpr (Nat.le_of_eq (congrArg UInt8.toNat heq))
    · have hpos : s.g.numNeighbours.toNat ≠ 0 := fun hzero => hne (UInt8.toNat_inj.mp hzero)
      have hone : (1 : UInt8) ≤ s.g.numNeighbours :=
        UInt8.le_iff_toNat_le.mpr (Nat.pos_of_ne_zero hpos)
      have hnum : c.g.numNeighbours = s.g.numNeighbours - 1 := heq
      rw [hnum, UInt8.le_iff_toNat_le, UInt8.toNat_sub_of_le _ _ hone]
      exact Nat.sub_le _ _
  | _ => trivial

/--
**The neighbour position never runs past the list**, in every run in which no `get_next_child` on a
measurement counts below 0.
-/
theorem position_in_list (index : List DbFlEntry) {env : Env} (henv : env.CachesDistinct)
    {calls : List Call} (hcalls : ∀ call ∈ calls, call.CachesDistinct)
    (habove : Meets (System.step index) StaysAbove (.boot env) calls) {s : System}
    (hrun : run (System.step index) (.boot env) calls = some s) : PositionLaw index env calls s := by
  refine ⟨Positioned.safe ?_, habove.imp noUnderflow_of_staysAbove⟩
  refine run_invariant (I := Positioned) ?_ ((Meets.of_forall hcalls).and habove)
    (.boot henv) hrun
  rintro s call t ⟨hcaches, hcall⟩ hs hstep
  exact hs.exec hcaches hcall (System.step_eq_some.mp hstep)

/-! ## A measurement that is held -/

/-- The children of the variable 0 into the variable 1, `n` times. -/
def takeChildren (n : Nat) : List Call := List.replicate n (.getNextChild 0 1 (by decide))

/-- `i = child`, and the first `n` of its children. -/
def enterChild (n : Nat) : List Call := .copy 1 0 :: takeChildren n

/-- The neighbour of the only interface is enumerated, and its measurement is copied. -/
def enumeration : List Call :=
  [.getRoot 0] ++ takeChildren 3 ++ enterChild 2 ++ enterChild 1 ++ enterChild 4 ++
    [.valueToStr 1 128 (Buf.zero 128)] ++ takeChildren 1 ++ enterChild 1 ++ enterChild 1 ++
    [.copy 1 2] ++ takeChildren 4

/-- Then the copy is asked for its children. -/
def heldMeasurement : List Call :=
  enumeration ++ List.replicate 4 (.getNextChild 2 1 (by decide))

theorem smallEnv_cachesDistinct : smallEnv.CachesDistinct := fun _ => List.nodup_singleton _

/-- The number has wrapped round, and reading at it follows a NULL link. -/
theorem position_underflows :
    ∃ s, run (System.step smallDb.dbIndex) (.boot smallEnv) heldMeasurement = some s ∧
      s.g.numNeighbours = 255 ∧ s.g.neighbours.length = 1 ∧
      (∀ sub, readSubField s.g.neighbours sub s.g.numNeighbours = .error .null) ∧
      ¬ PositionLaw smallDb.dbIndex smallEnv heldMeasurement s := by
  have hrun : ∃ s, run (System.step smallDb.dbIndex) (.boot smallEnv) heldMeasurement = some s ∧
      s.g.numNeighbours = 255 ∧ s.g.neighbours.length = 1 :=
    exists_run_of_any (P := fun s : System => s.g.numNeighbours = 255 ∧ s.g.neighbours.length = 1)
      (by decide +kernel)
  obtain ⟨s, hs, hnum, hlen⟩ := hrun
  have hne : s.g.neighbours ≠ [] := List.ne_nil_of_length_pos (by omega)
  refine ⟨s, hs, hnum, hlen, ?_, ?_⟩
  · intro sub
    rw [readSubField, if_neg hne, hnum, stepLinks_of_lt (by rw [hlen]; decide)]
    rfl
  · intro hlaw
    have hin := hlaw.safe.inList
    rw [hnum, hlen] at hin
    exact absurd hin (by decide)

theorem position_in_list_enumeration :
    ∃ s, run (System.step smallDb.dbIndex) (.boot smallEnv) enumeration = some s ∧
      s.g.numNeighbours = 0 ∧ PositionLaw smallDb.dbIndex smallEnv enumeration s := by
  have hrun : ∃ s, run (System.step smallDb.dbIndex) (.boot smallEnv) enumeration = some s ∧
      s.g.numNeighbours = 0 :=
    exists_run_of_any (P := fun s : System => s.g.numNeighbours = 0) (by decide +kernel)
  obtain ⟨s, hs, hnum⟩ := hrun
  refine ⟨s, hs, hnum, ?_⟩
  refine position_in_list smallDb.dbIndex smallEnv_cachesDistinct ?_ (by decide +kernel) hs
  simp [enumeration, takeChildren, enterChild, Call.CachesDistinct]

end Dca
