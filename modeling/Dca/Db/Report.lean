import Dca.Db.Node

/-!
# What a node reports

The name, the type and the values of a node, and which of the shared variables they depend on.
Leaves of `ps.c`, `saul_devices.c` and `netif.c` read their position from the file-level counters,
everything else is in the node.
-/

namespace Dca

open CLib

variable (db : Db)

/--
What `db_node_get_name`, `db_node_get_type` and the value accessors say about a node. Each of them
is kept as a function of the buffer that it is given.
-/
structure Report where
  name : NameBuf → Res NameBuf
  type : Res DbNodeType
  int : Res Int
  float : Res CFloat
  str : (n : Nat) → Buf n → Nat → Res (Buf n × Nat)

/-- The report of a node. An accessor whose type does not match fails its assertion. -/
def report (g : Globals) (node : DbNode) : Report where
  name := dbNodeGetName db g node
  type := dbNodeGetType db g node
  int := Prod.snd <$> dbNodeGetIntValue db g node
  float := dbNodeGetFloatValue db g node
  str := fun _ value bufsize => dbNodeGetStrValue db g node value bufsize

/-- Counting neighbours leaves the number of addresses, modulo 256, on top of the old count. -/
theorem numNeighbours_foldl (ips : List Ipv6Addr) (g : Globals) :
    (ips.foldl countNeighbour g).numNeighbours = g.numNeighbours + UInt8.ofNat ips.length := by
  induction ips generalizing g with
  | nil => simp
  | cons ip ips ih =>
    rw [List.foldl_cons, ih, List.length_cons, countNeighbour]
    show g.numNeighbours + 1 + UInt8.ofNat ips.length = g.numNeighbours + UInt8.ofNat (ips.length + 1)
    rw [UInt8.ofNat_add, UInt8.add_assoc, UInt8.add_comm 1]
    rfl

/-- The value of `num_neighbours` comes from the neighbour cache alone. -/
theorem netifNodeGetintValue_congr (env : Env) {g₁ g₂ : Globals} (iface : Option Nat)
    (h : g₁.netifFieldCount = g₂.netifFieldCount) :
    Prod.snd <$> netifNodeGetintValue env g₁ iface
      = Prod.snd <$> netifNodeGetintValue env g₂ iface := by
  unfold netifNodeGetintValue
  rw [h]
  split_ifs
  · cases env.iface iface <;> rfl
  · cases env.iface iface with
    | error t => rfl
    | ok n => simp [numNeighbours_foldl]
  · rfl

/-- The integer that a node reports. -/
theorem int_report (g : Globals) (node : DbNode) :
    (report db g node).int = (do
      assert ((← dbNodeGetType db g node) = .int)
      match node with
      | .fl flIdx subIdx _ => flNodeGetintValue db flIdx subIdx
      | .ps pid _ => psNodeGetintValue db.env g pid
      | .netif iface _ => Prod.snd <$> netifNodeGetintValue db.env g iface
      | .null | .root _ | .saul _ _ => .error .assert) := by
  simp only [report, dbNodeGetIntValue, map_bind]
  congr 1
  funext type
  congr 1
  funext _
  cases node with
  | fl flIdx subIdx isRoot =>
    dsimp only
    cases flNodeGetintValue db flIdx subIdx <;> rfl
  | ps pid level =>
    dsimp only
    cases psNodeGetintValue db.env g pid <;> rfl
  | null | root _ | saul _ _ | netif _ _ => rfl

variable {db}

theorem Report.ext' {r₁ r₂ : Report} (hname : r₁.name = r₂.name) (htype : r₁.type = r₂.type)
    (hint : r₁.int = r₂.int) (hfloat : r₁.float = r₂.float) (hstr : r₁.str = r₂.str) :
    r₁ = r₂ := by
  cases r₁
  cases r₂
  simp only at hname htype hint hfloat hstr
  subst hname htype hint hfloat hstr
  rfl

theorem report_fl (g₁ g₂ : Globals) (flIdx subIdx : UInt8) (isRoot : Bool) :
    report db g₁ (.fl flIdx subIdx isRoot) = report db g₂ (.fl flIdx subIdx isRoot) := by
  refine Report.ext' rfl rfl ?_ rfl rfl
  rw [int_report, int_report]
  rfl

theorem report_ps {g₁ g₂ : Globals} {pid : Nat} {level : PsLevel}
    (h : level = .field → g₁.fieldCount = g₂.fieldCount) :
    report db g₁ (.ps pid level) = report db g₂ (.ps pid level) := by
  cases level with
  | root => rfl
  | process => rfl
  | field =>
    obtain ⟨fc₁, _, _, _, _, _⟩ := g₁
    obtain ⟨fc₂, _, _, _, _, _⟩ := g₂
    obtain rfl : fc₁ = fc₂ := h rfl
    refine Report.ext' rfl rfl ?_ rfl rfl
    rw [int_report, int_report]
    rfl

theorem report_saul {g₁ g₂ : Globals} (dev : Option Nat) (level : SaulLevel)
    (h : g₁.saulFieldCount = g₂.saulFieldCount) :
    report db g₁ (.saul dev level) = report db g₂ (.saul dev level) := by
  obtain ⟨_, fc₁, _, _, _, _⟩ := g₁
  obtain ⟨_, fc₂, _, _, _, _⟩ := g₂
  obtain rfl : fc₁ = fc₂ := h
  refine Report.ext' rfl rfl ?_ rfl rfl
  rw [int_report, int_report]
  rfl

/-- The levels of `netif.c` that read the counters. -/
def NetifLevel.IsInner : NetifLevel → Prop
  | .root | .iface => True
  | .field | .neighbour | .qos => False

theorem report_netif_inner (g₁ g₂ : Globals) (iface : Option Nat) {level : NetifLevel}
    (h : level.IsInner) :
    report db g₁ (.netif iface level) = report db g₂ (.netif iface level) := by
  cases level with
  | root => rfl
  | iface => rfl
  | field | neighbour | qos => exact h.elim

theorem report_netif {g₁ g₂ : Globals} (iface : Option Nat) (level : NetifLevel)
    (hfield : g₁.netifFieldCount = g₂.netifFieldCount)
    (hsub : g₁.netifSubFieldCount = g₂.netifSubFieldCount)
    (hnum : g₁.numNeighbours = g₂.numNeighbours) (hnb : g₁.neighbours = g₂.neighbours) :
    report db g₁ (.netif iface level) = report db g₂ (.netif iface level) := by
  have hint := netifNodeGetintValue_congr db.env iface hfield
  obtain ⟨_, _, nf₁, sub₁, num₁, nb₁⟩ := g₁
  obtain ⟨_, _, nf₂, sub₂, num₂, nb₂⟩ := g₂
  obtain rfl : nf₁ = nf₂ := hfield
  obtain rfl : sub₁ = sub₂ := hsub
  obtain rfl : num₁ = num₂ := hnum
  obtain rfl : nb₁ = nb₂ := hnb
  refine Report.ext' rfl rfl ?_ rfl rfl
  rw [int_report, int_report]
  simp only [hint]
  rfl

/-- Among the five fields the report depends on `_netif_field_count` alone. -/
theorem report_netif_field {g₁ g₂ : Globals} (iface : Option Nat)
    (h : g₁.netifFieldCount = g₂.netifFieldCount) (hlt : g₁.netifFieldCount < netifCount) :
    report db g₁ (.netif iface .field) = report db g₂ (.netif iface .field) := by
  have hint := netifNodeGetintValue_congr db.env iface h
  obtain ⟨_, _, nf₁, sub₁, num₁, nb₁⟩ := g₁
  obtain ⟨_, _, nf₂, sub₂, num₂, nb₂⟩ := g₂
  obtain rfl : nf₁ = nf₂ := h
  have hcases : nf₁ = 0 ∨ nf₁ = 1 ∨ nf₁ = 2 ∨ nf₁ = 3 ∨ nf₁ = 4 := by
    have hn : nf₁.toNat < 5 := hlt
    simp only [← UInt8.toNat_inj]
    show nf₁.toNat = 0 ∨ nf₁.toNat = 1 ∨ nf₁.toNat = 2 ∨ nf₁.toNat = 3 ∨ nf₁.toNat = 4
    omega
  rcases hcases with rfl | rfl | rfl | rfl | rfl
  all_goals
    refine Report.ext' rfl rfl ?_ rfl rfl
    rw [int_report, int_report]
    simp only [hint]
    rfl

/-- Links are followed from the second neighbour on. -/
theorem readIp_congr (env : Env) (l : List NeighborEntryl) {num₁ num₂ : UInt8}
    (h : num₁.toNat - 1 = num₂.toNat - 1) {k : Nat} (b : Buf k) :
    readIp env l num₁ b = readIp env l num₂ b := by
  rw [readIp, readIp, h]

theorem readSubField_congr (l : List NeighborEntryl) (sub : UInt8) {num₁ num₂ : UInt8}
    (h : num₁.toNat - 1 = num₂.toNat - 1) :
    readSubField l sub num₁ = readSubField l sub num₂ := by
  rw [readSubField, readSubField, h]

/-- The types below an interface come from its own field counter first. -/
theorem netifNodeGettype_below {g : Globals} (h : g.netifFieldCount ≠ 0 ∧ g.netifFieldCount ≠ 3) :
    netifNodeGettype g .neighbour = .inner ∧
      netifNodeGettype g .qos
        = if g.netifSubFieldCount = 2 ∨ g.netifSubFieldCount = 3 ∨ g.netifSubFieldCount = 4
          then .float else .str := by
  simp [netifNodeGettype, h.1, h.2]

/-- The report of a neighbour depends on which one is at `_num_neighbours`. -/
theorem report_netif_neighbour {g₁ g₂ : Globals} (iface : Option Nat)
    (h₁ : g₁.netifFieldCount ≠ 0 ∧ g₁.netifFieldCount ≠ 3)
    (h₂ : g₂.netifFieldCount ≠ 0 ∧ g₂.netifFieldCount ≠ 3)
    (hnum : g₁.numNeighbours.toNat - 1 = g₂.numNeighbours.toNat - 1)
    (hnb : g₁.neighbours = g₂.neighbours) :
    report db g₁ (.netif iface .neighbour) = report db g₂ (.netif iface .neighbour) := by
  have htype : ∀ {g : Globals}, g.netifFieldCount ≠ 0 ∧ g.netifFieldCount ≠ 3 →
      dbNodeGetType db g (.netif iface .neighbour) = .ok .inner :=
    fun h => congrArg Except.ok (netifNodeGettype_below h).1
  refine Report.ext' ?_ ?_ ?_ ?_ ?_
  · funext b
    show netifGetIp db.env g₁ b = netifGetIp db.env g₂ b
    rw [netifGetIp, netifGetIp, hnb, readIp_congr db.env _ hnum]
  · exact (htype h₁).trans (htype h₂).symm
  · simp [int_report, htype h₁, htype h₂, assert]
  · simp [report, dbNodeGetFloatValue, htype h₁, htype h₂, assert]
  · simp [report, dbNodeGetStrValue, htype h₁, htype h₂, assert]

/-- The report of a measurement depends on the measurement and on the neighbour. -/
theorem report_netif_qos {g₁ g₂ : Globals} (iface : Option Nat)
    (h₁ : g₁.netifFieldCount ≠ 0 ∧ g₁.netifFieldCount ≠ 3)
    (h₂ : g₂.netifFieldCount ≠ 0 ∧ g₂.netifFieldCount ≠ 3)
    (hrange : g₁.netifSubFieldCount = 2 ∨ g₁.netifSubFieldCount = 3 ∨ g₁.netifSubFieldCount = 4)
    (hsub : g₁.netifSubFieldCount = g₂.netifSubFieldCount)
    (hnum : g₁.numNeighbours.toNat - 1 = g₂.numNeighbours.toNat - 1)
    (hnb : g₁.neighbours = g₂.neighbours) :
    report db g₁ (.netif iface .qos) = report db g₂ (.netif iface .qos) := by
  have htype : ∀ {g : Globals}, g.netifFieldCount ≠ 0 ∧ g.netifFieldCount ≠ 3 →
      g.netifSubFieldCount = g₁.netifSubFieldCount →
      dbNodeGetType db g (.netif iface .qos) = .ok .float := by
    intro g h hs
    show Except.ok (netifNodeGettype g .qos) = _
    rw [(netifNodeGettype_below h).2, hs, if_pos hrange]
  have ht₁ := htype h₁ rfl
  have ht₂ := htype h₂ hsub.symm
  refine Report.ext' ?_ ?_ ?_ ?_ ?_
  · funext b
    show netifNodeGetname db.env g₁ iface .qos b = netifNodeGetname db.env g₂ iface .qos b
    simp only [netifNodeGetname, netifNodeGetSubFieldName, hsub]
  · exact ht₁.trans ht₂.symm
  · simp [int_report, ht₁, ht₂, assert]
  · simp only [report, dbNodeGetFloatValue, ht₁, ht₂, netifNodeGetfloatValue, netifGetLatency,
      netifGetPacketloss, netifGetThroughput, hsub, hnb, readSubField_congr _ _ hnum]
  · simp [report, dbNodeGetStrValue, ht₁, ht₂, assert]

end Dca
