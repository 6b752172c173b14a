import Dca.Db.NodeName
import Dca.Db.Query

/-!
# Which name a node has

Where a name fits, the array holds it afterwards and does not depend on what it held before.
`Names` gives the name of each node that can be visited.
-/

namespace Dca

open CLib

variable (db : Db)

/-- The name of the node, in any array. -/
def Names (g : Globals) (node : DbNode) (name : CString) : Prop :=
  ∀ b : NameBuf, ∃ b', dbNodeGetName db g node b = .ok b' ∧ b'.Shows name

variable {db} {g : Globals} {node : DbNode}

/-- **The name is what is printed.** -/
theorem Names.print {name : CString} (h : Names db g node name) (stack : Stack) :
    printNodeName db stack g node = .ok name := by
  obtain ⟨b', hb', hs⟩ := h stack.name
  rw [printNodeName, hb', ok_bind, hs.strlen_eq, hs.str_eq]
  rfl

theorem Names.unique {name name' : CString} (h : Names db g node name)
    (h' : Names db g node name') : name = name' := by
  obtain ⟨b, hb, hs⟩ := h (Buf.zero _)
  obtain ⟨b', hb', hs'⟩ := h' (Buf.zero _)
  obtain rfl := Except.ok.inj (hb.symm.trans hb')
  exact hs.unique hs'

theorem names_strncpy (name : CString) (hlt : name.length < dbNodeNameMax)
    (h : ∀ b, dbNodeGetName db g node b = .ok (b.strncpy name)) : Names db g node name :=
  fun b => ⟨_, h b, Buf.shows_strncpy b hlt⟩

theorem names_strcpy (name : CString) (hlt : name.length < dbNodeNameMax)
    (h : ∀ b, dbNodeGetName db g node b = inBounds (b.strcpy name)) : Names db g node name := by
  intro b
  obtain ⟨b', hb', hs⟩ := b.strcpy_of_lt hlt
  exact ⟨b', by rw [h, hb']; rfl, hs⟩

/-! ## Tables -/

theorem names_row {folder : DbNode} (hn : TableNode db folder) {k : UInt8} {row : TableRow}
    (h : (tableRows db folder)[k.toNat]? = some row)
    (hlt : row.name.toCString.length < dbNodeNameMax) (g : Globals) :
    Names db g row.node row.name.toCString :=
  names_strncpy _ hlt (row_name hn h g)

/-! ## Processes -/

theorem names_process {pid : Nat} {p : Thread} (hpid : pid ≤ db.env.kernelPidLast)
    (hp : db.env.schedThreads pid = some p) (hlt : p.name.length < dbNodeNameMax) (g : Globals) :
    Names db g (.ps pid .process) p.name :=
  names_strncpy _ hlt fun b => by
    simp [dbNodeGetName, psNodeGetname, liveThread, Env.thread, hpid, hp]

theorem names_psField {pid : Nat} (hpid : pid ≤ db.env.kernelPidLast) {field : String}
    (hf : psFieldName g.fieldCount = some field) : Names db g (.ps pid .field) (.lit field) := by
  have hlt := psFieldName_lt (Option.isSome_of_eq_some hf)
  intro b
  refine ⟨_, ?_, shows_strncpy_str (Buf.shows_strncpy b (psFieldName_short hf))⟩
  simp [dbNodeGetName, psNodeGetname, psNodeGetFieldName, hlt, hpid, hf]

/-! ## Devices -/

theorem names_device {i : Nat} {r : SaulReg} (hr : db.env.saulReg[i]? = some r)
    (hlt : r.name.length < dbNodeNameMax) (g : Globals) :
    Names db g (.saul (some i) .device) r.name :=
  names_strcpy _ hlt fun b => by simp [dbNodeGetName, saulNodeGetname, Env.saul, hr]

theorem names_saulField (i : Nat) (hzero : g.saulFieldCount = 0) :
    Names db g (.saul (some i) .field) (.lit "class") := by
  intro b
  refine ⟨b.strncpy (b.strncpy (.lit "class")).str, ?_, shows_strncpy_str
    (Buf.shows_strncpy b (by decide : (CString.lit "class").length < dbNodeNameMax))⟩
  simp [dbNodeGetName, saulNodeGetname, saulNodeGetFieldName, hzero, saulCount]
  rfl

/-! ## Interfaces -/

theorem names_iface {i : Nat} {n : Netif} (hn : db.env.ifaces[i]? = some n)
    (hlt : n.name.length < dbNodeNameMax) (g : Globals) :
    Names db g (.netif (some i) .iface) n.name :=
  names_strcpy _ hlt fun b => by simp [dbNodeGetName, netifNodeGetname, Env.iface, hn]

theorem names_netifField (i : Nat) {field : String}
    (hf : netifFieldName g.netifFieldCount = some field) :
    Names db g (.netif (some i) .field) (.lit field) := by
  have hlt := netifFieldName_lt (Option.isSome_of_eq_some hf)
  intro b
  refine ⟨_, ?_, shows_strncpy_str (Buf.shows_strncpy b (netifFieldName_short hf))⟩
  simp [dbNodeGetName, netifNodeGetname, netifNodeGetFieldName, hlt, hf]

theorem names_neighbour (i : Nat) {e : NeighborEntryl}
    (he : entryAt g.neighbours g.numNeighbours = some e)
    (hlt : (db.env.ipv6AddrToStr e.addr).length < dbNodeNameMax) :
    Names db g (.netif (some i) .neighbour) (db.env.ipv6AddrToStr e.addr) :=
  names_strcpy _ hlt fun b => by
    show (readIp db.env g.neighbours g.numNeighbours b).map Prod.fst = _
    rw [readIp_eq db.env he]
    cases inBounds (b.strcpy (db.env.ipv6AddrToStr e.addr)) <;> rfl

theorem names_qos (i : Nat) {field : String}
    (hf : netifSubFieldName g.netifSubFieldCount = some field) :
    Names db g (.netif (some i) .qos) (.lit field) := by
  have hle := netifSubFieldName_le (Option.isSome_of_eq_some hf)
  intro b
  refine ⟨_, ?_, shows_strncpy_str (Buf.shows_strncpy b (netifSubFieldName_short hf))⟩
  simp [dbNodeGetName, netifNodeGetname, netifNodeGetSubFieldName, hle, hf]

end Dca
