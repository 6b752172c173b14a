import Dca.Db.History

/-!
# Held nodes

A caller that has found a node keeps a copy of it while other operations run. What the copy
reports is computed from the shared counters, so it stays the same as long as the counters keep
the place that the node stands for (`KeepsPlace`): `_field_count` for the field of a process,
`_netif_field_count` for the field of an interface, and for a neighbour or a measurement the
position in the neighbour list and the counter of the measurement.

Where a lookup can leave the counters of `netif.c` is said by `NetifPos`.
-/

namespace Dca

open CLib

variable {db : Db}

/-! ## The counters of `netif.c` during a lookup -/

/-- The counters as `db_new_netif_node` sets them. -/
def Globals.Fresh (g : Globals) : Prop := g.netifFieldCount = 0 ∧ g.netifSubFieldCount = 1

/-- `child` is null or a node of `netif.c` at this level. -/
def NullOrAt (level : NetifLevel) (child : DbNode) : Prop :=
  child = .null ∨ ∃ iface, child = .netif iface level

/-- Where the counters are when a lookup has its two nodes at certain levels of `netif.c`. -/
def NetifPos (c : Cursor) : Prop :=
  match c.node with
  | .netif _ .root => (NullOrAt .root c.child ∨ NullOrAt .iface c.child) ∧ c.g.Fresh
  | .netif _ .iface => NullOrAt .iface c.child ∧ c.g.Fresh
  | .netif _ .field =>
    NullOrAt .field c.child ∧ c.g.netifFieldCount < netifCount ∧ c.g.netifSubFieldCount = 1
  | .netif _ .neighbour =>
    c.g.netifFieldCount = netifCount - 1 ∧
      ((c.child = .null ∧ c.g.netifSubFieldCount = 1) ∨
        (NullOrAt .neighbour c.child ∧ c.g.netifSubFieldCount = 2))
  | .netif _ .qos =>
    c.g.netifFieldCount = netifCount - 1 ∧
      (c.child = .null ∨ (NullOrAt .qos c.child ∧ (c.g.netifSubFieldCount = 2 ∨
        c.g.netifSubFieldCount = 3 ∨ c.g.netifSubFieldCount = 4)))
  | _ => ¬ c.child.IsNetif ∨ (NullOrAt .root c.child ∧ c.g.Fresh)

theorem netifField_next {x : UInt8} (h : x < netifCount - 1) : x + 1 < netifCount := by
  rw [UInt8.lt_iff_toNat_lt] at h ⊢
  rw [UInt8.toNat_add]
  have h' : x.toNat < 4 := h
  show (x.toNat + 1) % 256 < 5
  omega

/-- **Every step keeps the counters in line with the place.** -/
theorem NetifPos.step {c c' : Cursor} (hstep : ChildStep db c c') (h : NetifPos c) :
    NetifPos c' := by
  cases hstep with
  | branch | rootEnd | static | branchEnd | process | processEnd | psLeaf | psEnd | device
  | deviceEnd | saulLeaf | saulEnd => exact Or.inl id
  | dynamic g child flIdx subIdx fn =>
    cases fn with
    | dbNewPsNode | dbNewSaulNode => exact Or.inl id
    | dbNewNetifNode => exact Or.inr ⟨Or.inr ⟨_, rfl⟩, rfl, rfl⟩
  | psStay | saulStay | netifStay | psField | saulField => exact h
  | iface g child i => exact ⟨Or.inr (Or.inr ⟨_, rfl⟩), h.2⟩
  | ifaceEnd g child => exact ⟨Or.inl (Or.inl rfl), h.2⟩
  | netifLeaf g child iface =>
    have hlt : g.netifFieldCount < netifCount := by
      rw [h.2.1]
      decide
    exact ⟨Or.inr ⟨_, rfl⟩, hlt, h.2.2⟩
  | netifField g child iface more => exact ⟨h.1, netifField_next more, h.2.2⟩
  | netifFieldEnd g child iface => exact ⟨Or.inl rfl, h.2⟩
  | neighbours g child iface last =>
    have hs : g.netifSubFieldCount = 1 := h.2.2
    refine ⟨last, Or.inr ⟨Or.inr ⟨_, rfl⟩, ?_⟩⟩
    show g.netifSubFieldCount + 1 = 2
    rw [hs]
    rfl
  | noNeighbour g child iface => exact ⟨h.1, Or.inl ⟨rfl, rfl⟩⟩
  | neighbour g child iface first =>
    refine ⟨h.1, Or.inr ⟨Or.inr ⟨_, rfl⟩, ?_⟩⟩
    show g.netifSubFieldCount + 1 = 2
    rw [first]
    rfl
  | qos g child iface started more =>
    rcases h.2 with ⟨-, hs⟩ | ⟨-, hs⟩
    · exact absurd hs started
    · exact ⟨h.1, Or.inr ⟨Or.inr ⟨_, rfl⟩, Or.inl hs⟩⟩
  | qosField g child iface more =>
    -- a measurement is shown with the counter one past it, and 4 is past the last of them
    rcases h.2 with hnull | ⟨hchild, hs⟩
    · exact ⟨h.1, Or.inl hnull⟩
    · refine ⟨h.1, Or.inr ⟨hchild, ?_⟩⟩
      show g.netifSubFieldCount + 1 = 2 ∨ g.netifSubFieldCount + 1 = 3
        ∨ g.netifSubFieldCount + 1 = 4
      rcases hs with hs | hs | hs
      · exact Or.inr (Or.inl (by rw [hs]; rfl))
      · exact Or.inr (Or.inr (by rw [hs]; rfl))
      · have hs : g.netifSubFieldCount = 4 := hs
        rw [hs] at more
        exact absurd more (by decide)
  | qosEnd g child iface last => exact ⟨h.1, Or.inl rfl⟩
  | lastNeighbour g child iface level below =>
    rcases below with rfl | rfl
    · exact ⟨h.1, Or.inl ⟨rfl, rfl⟩⟩
    · exact ⟨h.1, Or.inl rfl⟩
  | nextNeighbour g child iface level below =>
    rcases below with rfl | rfl
    · exact ⟨h.1, Or.inr ⟨Or.inr ⟨_, rfl⟩, rfl⟩⟩
    · exact ⟨h.1, Or.inr ⟨Or.inr ⟨_, rfl⟩, rfl⟩⟩

/-- A child of `netif.c` is found at its own level, and with it the counters. -/
theorem NetifPos.child {c : Cursor} (h : NetifPos c) {iface : Option Nat} {level : NetifLevel}
    (hchild : c.child = .netif iface level) : NetifPos ⟨c.g, .netif iface level, c.child⟩ := by
  obtain ⟨g, node, child⟩ := c
  obtain rfl : child = .netif iface level := hchild
  have hat : NullOrAt level (.netif iface level) := Or.inr ⟨iface, rfl⟩
  have hlevel : ∀ {l : NetifLevel}, NullOrAt l (.netif iface level) → level = l := by
    rintro l (hnull | ⟨i, hi⟩)
    · cases hnull
    · cases hi
      rfl
  have houtside : (¬ (DbNode.netif iface level).IsNetif ∨
      (NullOrAt .root (.netif iface level) ∧ g.Fresh)) →
      NetifPos ⟨g, .netif iface level, .netif iface level⟩ := by
    rintro (hn | ⟨hroot, hfresh⟩)
    · exact absurd trivial hn
    · obtain rfl := hlevel hroot
      exact ⟨Or.inl hat, hfresh⟩
  -- the invariant speaks of the child through its parent, and each level has its own counters
  cases node with
  | null | root _ | fl _ _ _ | ps _ _ | saul _ _ => exact houtside h
  | netif i l =>
    cases l with
    | root =>
      obtain ⟨hroot | hiface, hfresh⟩ := h
      · obtain rfl := hlevel hroot
        exact ⟨Or.inl hat, hfresh⟩
      · obtain rfl := hlevel hiface
        exact ⟨hat, hfresh⟩
    | iface =>
      obtain rfl := hlevel h.1
      exact h
    | field =>
      obtain rfl := hlevel h.1
      exact h
    | neighbour =>
      obtain ⟨hf, ⟨hnull, -⟩ | ⟨hnb, hs⟩⟩ := h
      · cases hnull
      · obtain rfl := hlevel hnb
        exact ⟨hf, Or.inr ⟨hat, hs⟩⟩
    | qos =>
      obtain ⟨hf, hnull | ⟨hqos, hs⟩⟩ := h
      · cases hnull
      · obtain rfl := hlevel hqos
        exact ⟨hf, Or.inr ⟨hat, hs⟩⟩

theorem lookupInvariant_netifPos : LookupInvariant db NetifPos where
  root := fun g => Or.inl id
  step := NetifPos.step
  descend := by
    intro c hc hne
    cases hchild : c.child with
    | null => exact absurd hchild hne
    | root _ | fl _ _ _ | ps _ _ | saul _ _ => exact Or.inl id
    | netif iface level =>
      have h := hc.child hchild
      rw [hchild] at h
      exact h

/-! ## What a held node reports -/

/--
The counters keep the place of a node from `g₀` to `g`. The root, branches, static entries, lists
and their entries have their place in the node itself.
-/
def KeepsPlace (g₀ g : Globals) : DbNode → Prop
  | .ps _ .field => g.fieldCount = g₀.fieldCount
  | .netif _ .field => g.netifFieldCount = g₀.netifFieldCount
  | .netif _ .neighbour =>
    (g.netifFieldCount ≠ 0 ∧ g.netifFieldCount ≠ 3) ∧
      g.numNeighbours.toNat - 1 = g₀.numNeighbours.toNat - 1
  | .netif _ .qos =>
    (g.netifFieldCount ≠ 0 ∧ g.netifFieldCount ≠ 3) ∧
      g.netifSubFieldCount = g₀.netifSubFieldCount ∧
        g.numNeighbours.toNat - 1 = g₀.numNeighbours.toNat - 1
  | _ => True

/-- Behind the fields, the field counter of a lookup is that of `neighbours`. -/
theorem neighbours_ne {g : Globals} (h : g.netifFieldCount = netifCount - 1) :
    g.netifFieldCount ≠ 0 ∧ g.netifFieldCount ≠ 3 := by
  rw [h]
  decide

theorem report_of_keepsPlace {g₀ g : Globals} {node : DbNode} (hpos : NetifPos ⟨g₀, node, node⟩)
    (hsaul : g.saulFieldCount = g₀.saulFieldCount) (hnb : g.neighbours = g₀.neighbours)
    (h : KeepsPlace g₀ g node) : report db g node = report db g₀ node := by
  cases node with
  | null => rfl
  | root idx => rfl
  | fl flIdx subIdx isRoot => exact report_fl g g₀ flIdx subIdx isRoot
  | saul dev level => exact report_saul dev level hsaul
  | ps pid level =>
    refine report_ps ?_
    rintro rfl
    exact h
  | netif iface level =>
    cases level with
    | root | iface => exact report_netif_inner g g₀ iface trivial
    | field =>
      have hlt : g.netifFieldCount < netifCount := by
        rw [show g.netifFieldCount = g₀.netifFieldCount from h]
        exact hpos.2.1
      exact report_netif_field iface h hlt
    | neighbour => exact report_netif_neighbour iface h.1 (neighbours_ne hpos.1) h.2 hnb
    | qos =>
      obtain ⟨hf, hnull | ⟨-, hrange⟩⟩ := hpos
      · cases hnull
      · refine report_netif_qos iface h.1 (neighbours_ne hf) ?_ h.2.1 h.2.2 hnb
        rw [h.2.1]
        exact hrange

variable (db) in
/-- Every node that a lookup finds reports the same after all histories on other nodes. -/
def HeldIdentity (neighbours : List NeighborEntryl) : Prop :=
  ∀ (ops : List DbOp) (s : Session), History db (.boot neighbours) ops s →
    ∀ (path : CString) (fuel : Nat) (child : DbNode) (nameBuf : NameBuf) (found : Found),
      dbFindNodeByPath db fuel s.g path child nameBuf = .ok found → found.code = 0 →
      ∀ (held : List DbNode) (ops' : List DbOp) (s' : Session),
        History db ⟨found.g, held⟩ ops' s' → s'.g.neighbours = found.g.neighbours →
        report db s'.g found.node = report db found.g found.node

/-- The node of `/runtime/ps/idle/pid` is a text once `/runtime/ps/idle/state` has been found. -/
theorem not_heldIdentity : ¬ HeldIdentity smallDb [] := by
  intro h
  have hfind : History smallDb ⟨{}, []⟩ [.find (.lit "/runtime/ps/idle/state")]
      ⟨{ fieldCount := 1 }, [.ps 1 .field]⟩ :=
    .cons ⟨.null, Buf.zero _, Buf.zero _⟩ 8 (by decide) (.nil _)
  have hreport := h [] _ (.nil _) (.lit "/runtime/ps/idle/pid") 8 .null (Buf.zero _)
    ⟨{}, 0, .ps 1 .field⟩ (by decide) rfl [] _ _ hfind rfl
  exact absurd (congrArg Report.type hreport) (by decide)

/--
**A held node reports the same as long as the counters keep its place**, whatever is done with
other nodes and paths in between.
-/
theorem report_held (db : Db) (neighbours : List NeighborEntryl) (ops : List DbOp) (s : Session)
    (hs : History db (.boot neighbours) ops s) (path : CString) (fuel : Nat) (child : DbNode)
    (nameBuf : NameBuf) (found : Found)
    (hfind : dbFindNodeByPath db fuel s.g path child nameBuf = .ok found) (hcode : found.code = 0)
    (held : List DbNode) (ops' : List DbOp) (s' : Session)
    (hs' : History db ⟨found.g, held⟩ ops' s') (hnb : s'.g.neighbours = found.g.neighbours)
    (hkeep : KeepsPlace found.g s'.g found.node) :
    report db s'.g found.node = report db found.g found.node := by
  have hpos := lookupInvariant_netifPos.find hfind hcode
  have hsaul := kept_saulFieldCount.find hfind (kept_saulFieldCount.history hs rfl)
  have hsaul' := kept_saulFieldCount.history hs' hsaul
  exact report_of_keepsPlace hpos (hsaul'.trans hsaul.symm) hnb hkeep

/-- The globals of the small board after a lookup of the latency of `fe80::1`. -/
def latencyGlobals : Globals :=
  { countedSmall with netifFieldCount := 4, netifSubFieldCount := 2 }

/-- The latency is held while the state of a process is looked up. -/
theorem report_held_latency :
    report smallDb { latencyGlobals with fieldCount := 1 } (.netif (some 0) .qos)
      = report smallDb latencyGlobals (.netif (some 0) .qos) :=
  report_held smallDb [] _ _ countedSmall_history latencyPath 8 .null (Buf.zero _)
    ⟨latencyGlobals, 0, .netif (some 0) .qos⟩ (by decide) rfl []
    [.find (.lit "/runtime/ps/idle/state")]
    ⟨{ latencyGlobals with fieldCount := 1 }, [.ps 1 .field]⟩
    (.cons ⟨.null, Buf.zero _, Buf.zero _⟩ 8 (by decide) (.nil _)) rfl ⟨by decide, rfl, rfl⟩

end Dca
