import Dca.Db.Node

/-!
# The calls of `get_next_child`

One equation for each branch of `_ps_node_getnext_child`, `_saul_node_getnext_child` and
`_netif_node_getnext_child`, with the condition under which it runs.
-/

namespace Dca

open CLib

variable {db : Db}

/-! ## Counters of fields -/

theorem lt_or_last {x : UInt8} (h : x < netifCount) : x < netifCount - 1 ∨ x = netifCount - 1 := by
  have hn : x.toNat < 5 := h
  rw [UInt8.lt_iff_toNat_lt, ← UInt8.toNat_inj]
  show x.toNat < 4 ∨ x.toNat = 4
  omega

theorem lt_netifCount {x : UInt8} : x < netifCount ↔ x.toNat < 5 := UInt8.lt_iff_toNat_lt

theorem lt_last {x : UInt8} : x < netifCount - 1 ↔ x.toNat < 4 := UInt8.lt_iff_toNat_lt

theorem ne_last_of_lt {x : UInt8} (h : x < netifCount - 1) : x ≠ netifCount - 1 := by
  rintro rfl
  exact absurd h (by decide)

theorem toNat_lt_qosCount {x : UInt8} : x < qosCount ↔ x.toNat < 4 := UInt8.lt_iff_toNat_lt

/-! ## The branches -/

section Branches

variable {g : Globals} {iface : Option Nat} (child : DbNode)

theorem next_psRoot {pid next : Nat} (hlast : pid ≤ db.env.kernelPidLast)
    (hnext : getNextPid db.env pid = .ok next) :
    dbNodeGetNextChild db ⟨g, .ps pid .root, child⟩
      = .ok ⟨g, .ps next .root, .ps pid .process⟩ := by
  simp only [dbNodeGetNextChild, psNodeGetnextChild, if_pos hlast, hnext, ok_bind, pure_eq_ok,
    psNodeInit]

theorem next_psRoot_end {pid : Nat} (hlast : ¬ pid ≤ db.env.kernelPidLast) :
    dbNodeGetNextChild db ⟨g, .ps pid .root, child⟩ = .ok ⟨g, .ps pid .root, .null⟩ := by
  simp only [dbNodeGetNextChild, psNodeGetnextChild, if_neg hlast, pure_eq_ok]

theorem next_process {pid next : Nat} (hlast : pid ≤ db.env.kernelPidLast)
    (hfield : g.fieldCount < psCount) (hnext : getNextPid db.env pid = .ok next) :
    dbNodeGetNextChild db ⟨g, .ps pid .process, child⟩
      = .ok ⟨g, .ps next .field, .ps pid .field⟩ := by
  simp only [dbNodeGetNextChild, psNodeGetnextChild, hlast, hfield, and_self, if_true, hnext,
    ok_bind, pure_eq_ok, psNodeInit]

theorem next_psField {pid : Nat} (h : g.fieldCount ≠ psCount - 1) :
    dbNodeGetNextChild db ⟨g, .ps pid .field, child⟩
      = .ok ⟨{ g with fieldCount := g.fieldCount + 1 }, .ps pid .field, child⟩ := by
  simp only [dbNodeGetNextChild, psNodeGetnextChild, if_neg h, pure_eq_ok]

theorem next_psField_end {pid : Nat} (h : g.fieldCount = psCount - 1) :
    dbNodeGetNextChild db ⟨g, .ps pid .field, child⟩
      = .ok ⟨{ g with fieldCount := 0 }, .ps pid .field, .null⟩ := by
  simp only [dbNodeGetNextChild, psNodeGetnextChild, if_pos h, pure_eq_ok]

theorem next_saulRoot (i : Nat) :
    dbNodeGetNextChild db ⟨g, .saul (some i) .root, child⟩
      = .ok ⟨g, .saul (linkAt db.env.saulReg.length (i + 1)) .root, .saul (some i) .device⟩ := rfl

theorem next_saulRoot_end :
    dbNodeGetNextChild db ⟨g, .saul none .root, child⟩ = .ok ⟨g, .saul none .root, .null⟩ := rfl

theorem next_device {i : Nat} (h : g.saulFieldCount = 0) :
    dbNodeGetNextChild db ⟨g, .saul (some i) .device, child⟩
      = .ok ⟨g, .saul (db.env.saulNext i) .field, .saul (some i) .field⟩ := by
  have hlt : g.saulFieldCount < saulCount := by
    rw [h]
    decide
  simp only [dbNodeGetNextChild, saulNodeGetnextChild, if_pos hlt, pure_eq_ok, saulNodeInit]

theorem next_saulField {dev : Option Nat} (h : g.saulFieldCount = 0) :
    dbNodeGetNextChild db ⟨g, .saul dev .field, child⟩ = .ok ⟨g, .saul dev .field, .null⟩ := by
  have hlast : g.saulFieldCount = saulCount - 1 := h
  have hg : { g with saulFieldCount := 0 } = g := by rw [← h]
  simp only [dbNodeGetNextChild, saulNodeGetnextChild, if_pos hlast, pure_eq_ok, hg]

theorem next_netifRoot (i : Nat) :
    dbNodeGetNextChild db ⟨g, .netif (some i) .root, child⟩
      = .ok ⟨g, .netif (linkAt db.env.ifaces.length (i + 1)) .root, .netif (some i) .iface⟩ := rfl

theorem next_netifRoot_end :
    dbNodeGetNextChild db ⟨g, .netif none .root, child⟩ = .ok ⟨g, .netif none .root, .null⟩ := rfl

theorem next_iface {i : Nat} (h : g.netifFieldCount < netifCount) :
    dbNodeGetNextChild db ⟨g, .netif (some i) .iface, child⟩
      = .ok ⟨g, .netif (db.env.netifIter (some i)) .field, .netif (some i) .field⟩ := by
  simp only [dbNodeGetNextChild, netifNodeGetnextChild, netifGetnextChildDepth,
    netifGetnextChildBody, ne_eq, reduceCtorEq, not_false_eq_true, h, and_self, if_true,
    netifNodeInit]

theorem next_netifField (h : g.netifFieldCount < netifCount - 1) :
    dbNodeGetNextChild db ⟨g, .netif iface .field, child⟩
      = .ok ⟨{ g with netifFieldCount := g.netifFieldCount + 1 }, .netif iface .field, child⟩ := by
  simp only [dbNodeGetNextChild, netifNodeGetnextChild, netifGetnextChildDepth,
    netifGetnextChildBody, ne_last_of_lt h, false_and, if_false, if_pos h]

theorem next_netifField_end (hlast : g.netifFieldCount = netifCount - 1)
    (hnone : iface = none ∨ g.numNeighbours = 0) :
    dbNodeGetNextChild db ⟨g, .netif iface .field, child⟩ = .ok ⟨g, .netif iface .field, .null⟩ := by
  have hstop : ¬ (g.netifFieldCount = netifCount - 1 ∧ iface ≠ none ∧ 0 < g.numNeighbours) := by
    rintro ⟨-, hiface, hpos⟩
    rcases hnone with hnone | hzero
    · exact hiface hnone
    · rw [hzero] at hpos
      exact absurd hpos (by decide)
  have hlt : ¬ g.netifFieldCount < netifCount - 1 := fun hlt => ne_last_of_lt hlt hlast
  simp only [dbNodeGetNextChild, netifNodeGetnextChild, netifGetnextChildDepth,
    netifGetnextChildBody, if_neg hstop, if_neg hlt]

theorem next_netifField_neighbours {i : Nat} (hlast : g.netifFieldCount = netifCount - 1)
    (hpos : g.numNeighbours ≠ 0) :
    dbNodeGetNextChild db ⟨g, .netif (some i) .field, child⟩
      = .ok ⟨{ g with netifSubFieldCount := g.netifSubFieldCount + 1 },
          .netif (some i) .neighbour, .netif (some i) .neighbour⟩ := by
  have hlt : 0 < g.numNeighbours := UInt8.pos_iff_ne_zero.mpr hpos
  simp only [dbNodeGetNextChild, netifNodeGetnextChild, netifGetnextChildDepth,
    netifGetnextChildBody, hlast, ne_eq, reduceCtorEq, not_false_eq_true, hlt, and_self, if_true,
    netifNodeInit]

theorem next_neighbour_end (hzero : g.numNeighbours = 0) :
    dbNodeGetNextChild db ⟨g, .netif iface .neighbour, child⟩
      = .ok ⟨{ g with netifSubFieldCount := 1 }, .netif iface .neighbour, .null⟩ := by
  have hle : g.numNeighbours ≤ 0 := UInt8.le_zero_iff.mpr hzero
  simp only [dbNodeGetNextChild, netifNodeGetnextChild, netifGetnextChildDepth,
    netifGetnextChildBody, if_pos hle]

/-- What the branches for the next neighbour do, with the recursive call. -/
def nextNeighbour (g : Globals) (iface : Option Nat) (level : NetifLevel) : Cursor :=
  if g.numNeighbours - 1 = 0 then
    ⟨{ g with numNeighbours := 0, netifSubFieldCount := 1 }, .netif iface level, .null⟩
  else
    ⟨{ g with numNeighbours := g.numNeighbours - 1, netifSubFieldCount := 2 },
      .netif iface .neighbour, .netif iface .neighbour⟩

theorem netifNextNeighbour_ok (env : Env) (level : NetifLevel) :
    netifNextNeighbour (netifGetnextChildDepth env 1) ⟨g, .netif iface level, child⟩ iface
      = .ok (nextNeighbour g iface level) := by
  dsimp only [netifNextNeighbour, nextNeighbour]
  split_ifs with hzero
  · rw [hzero]
  · have hpos : ¬ g.numNeighbours - 1 ≤ 0 := fun hle => hzero (UInt8.le_zero_iff.mp hle)
    simp only [netifGetnextChildDepth, netifGetnextChildBody, if_neg hpos, if_true]
    rfl

section Below

variable (hpos : g.numNeighbours ≠ 0)
include hpos

theorem next_neighbour_first (hsub : g.netifSubFieldCount = 1) :
    dbNodeGetNextChild db ⟨g, .netif iface .neighbour, child⟩
      = .ok ⟨{ g with netifSubFieldCount := 2 }, .netif iface .neighbour,
          .netif iface .neighbour⟩ := by
  have hle : ¬ g.numNeighbours ≤ 0 := fun hle => hpos (UInt8.le_zero_iff.mp hle)
  simp only [dbNodeGetNextChild, netifNodeGetnextChild, netifGetnextChildDepth,
    netifGetnextChildBody, if_neg hle, if_pos hsub]
  rw [hsub]
  rfl

theorem next_neighbour_qos (hsub : g.netifSubFieldCount ≠ 1)
    (hmore : g.netifSubFieldCount < qosCount) :
    dbNodeGetNextChild db ⟨g, .netif iface .neighbour, child⟩
      = .ok ⟨g, .netif iface .qos, .netif iface .qos⟩ := by
  have hle : ¬ g.numNeighbours ≤ 0 := fun hle => hpos (UInt8.le_zero_iff.mp hle)
  simp only [dbNodeGetNextChild, netifNodeGetnextChild, netifGetnextChildDepth,
    netifGetnextChildBody, if_neg hle, if_neg hsub, if_pos hmore, netifNodeInit]

theorem next_neighbour_next (hmore : ¬ g.netifSubFieldCount < qosCount) :
    dbNodeGetNextChild db ⟨g, .netif iface .neighbour, child⟩
      = .ok (nextNeighbour g iface .neighbour) := by
  have hle : ¬ g.numNeighbours ≤ 0 := fun hle => hpos (UInt8.le_zero_iff.mp hle)
  have hsub : g.netifSubFieldCount ≠ 1 := by
    intro hsub
    rw [hsub] at hmore
    exact hmore (by decide)
  have hagain : netifNextNeighbour (netifGetnextChildDepth db.env 1)
      ⟨g, .netif iface .neighbour, child⟩ iface = .ok (nextNeighbour g iface .neighbour) :=
    netifNextNeighbour_ok child db.env .neighbour
  simp only [dbNodeGetNextChild, netifNodeGetnextChild, netifGetnextChildDepth,
    netifGetnextChildBody, if_neg hle, if_neg hsub, if_neg hmore] at hagain ⊢
  exact hagain

end Below

theorem next_qos (hmore : g.netifSubFieldCount < qosCount) :
    dbNodeGetNextChild db ⟨g, .netif iface .qos, child⟩
      = .ok ⟨{ g with netifSubFieldCount := g.netifSubFieldCount + 1 }, .netif iface .qos,
          child⟩ := by
  simp only [dbNodeGetNextChild, netifNodeGetnextChild, netifGetnextChildDepth,
    netifGetnextChildBody, if_pos hmore]

theorem next_qos_end (hlast : g.netifSubFieldCount = qosCount) (hpos : g.numNeighbours ≠ 0) :
    dbNodeGetNextChild db ⟨g, .netif iface .qos, child⟩
      = .ok ⟨{ g with netifSubFieldCount := 5 }, .netif iface .qos, .null⟩ := by
  have hmore : ¬ g.netifSubFieldCount < qosCount := by
    rw [hlast]
    decide
  have hend : g.netifSubFieldCount = qosCount ∧ g.numNeighbours ≠ 0 := ⟨hlast, hpos⟩
  simp only [dbNodeGetNextChild, netifNodeGetnextChild, netifGetnextChildDepth,
    netifGetnextChildBody, if_neg hmore, if_pos hend]
  rw [hlast]
  rfl

theorem next_qos_next (hmore : ¬ g.netifSubFieldCount < qosCount)
    (hend : ¬ (g.netifSubFieldCount = qosCount ∧ g.numNeighbours ≠ 0)) :
    dbNodeGetNextChild db ⟨g, .netif iface .qos, child⟩
      = .ok (nextNeighbour g iface .qos) := by
  have hagain : netifNextNeighbour (netifGetnextChildDepth db.env 1)
      ⟨g, .netif iface .qos, child⟩ iface = .ok (nextNeighbour g iface .qos) :=
    netifNextNeighbour_ok child db.env .qos
  simp only [dbNodeGetNextChild, netifNodeGetnextChild, netifGetnextChildDepth,
    netifGetnextChildBody, if_neg hmore, if_neg hend] at hagain ⊢
  exact hagain

end Branches

end Dca
